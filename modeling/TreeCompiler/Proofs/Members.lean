import Mathlib.Data.Finset.Sort
import TreeCompiler.Proofs.BitSet.Memory

/-!
Bit sets are finite sets of numbers. Whatever is done to any number of variables, each is a set that shows
the members that its history describes, in membership, size and walks. This is so however much arrays grow
and although slices are handed on, so no set changes when its copy or its original does.
-/

namespace TreeCompiler.BitSet

section Keys

variable {w : UInt64} {i j k : Nat} {ws : List UInt64}

/-- The positions of the bits that are set in a word, in ascending order. -/
def bits (w : UInt64) : List Nat :=
  (List.range 64).filter (testBit w)

theorem mem_bits : j ∈ bits w ↔ j < 64 ∧ testBit w j = true := by
  simp [bits]

theorem pairwise_bits (w : UInt64) : (bits w).Pairwise (· < ·) :=
  List.pairwise_lt_range.filter _

@[simp] theorem bits_zero : bits 0 = [] :=
  List.filter_eq_nil_iff.mpr fun j _ => by simp [testBit_zero]

/-- The lowest bit comes first, and the others are those of the word without it. -/
theorem bits_eq_cons (hw : w ≠ 0) : bits w = lowest w :: bits (w &&& ~~~bit (lowest w)) := by
  have hlt := lowest_lt hw
  have hbits : w.toBitVec ≠ 0#64 := fun h => hw (UInt64.toBitVec_inj.mp h)
  have hset : testBit w (lowest w) = true := by
    rw [testBit_eq_getLsbD hlt]
    exact BitVec.getLsbD_true_ctz_of_ne_zero hbits
  have hbelow : ∀ j < lowest w, testBit w j = false := by
    intro j hj
    rw [testBit_eq_getLsbD (Nat.lt_trans hj hlt)]
    exact BitVec.getLsbD_false_of_lt_ctz hj
  have hrest : ∀ j, j ∈ bits (w &&& ~~~bit (lowest w)) ↔ j ≠ lowest w ∧ j ∈ bits w := by
    intro j
    simp only [mem_bits]
    constructor
    · rintro ⟨hj, hbit⟩
      rw [testBit_clear hj hlt] at hbit
      simpa [hj] using hbit
    · rintro ⟨hne, hj, hbit⟩
      exact ⟨hj, by simp [testBit_clear hj hlt, hne, hbit]⟩
  refine (pairwise_bits w).eq_of_mem_iff (List.pairwise_cons.mpr ⟨?_, pairwise_bits _⟩) fun j => ?_
  · intro j hj
    obtain ⟨hne, hmem⟩ := (hrest j).mp hj
    have hnot : ¬ j < lowest w := fun h => Bool.noConfusion ((hbelow j h).symm.trans (mem_bits.mp hmem).2)
    omega
  · rw [List.mem_cons, hrest]
    by_cases hj : j = lowest w
    · simp [hj, mem_bits, hlt, hset]
    · simp [hj]

theorem length_bits (w : UInt64) : (bits w).length = count w := by
  have hprefix : ∀ n ≤ 64, ((List.range n).filter (testBit w)).length = w.toBitVec.cpopNatRec n 0 := by
    intro n
    induction n with
    | zero => simp
    | succ n ih =>
      intro hn
      have hbit : ((List.filter (testBit w) [n]).length = (w.toBitVec.getLsbD n).toNat) := by
        rw [← testBit_eq_getLsbD (Nat.lt_of_succ_le hn)]
        cases htest : testBit w n <;> simp [htest]
      rw [List.range_succ, List.filter_append, List.length_append, ih (by omega), hbit, BitVec.cpopNatRec_succ,
        Nat.zero_add, BitVec.cpopNatRec_eq (w.toBitVec.getLsbD n).toNat]
  rw [bits, hprefix 64 (Nat.le_refl _), count, BitVec.toNat_cpop]

/-- The keys of the words from index `i` on, in ascending order. -/
def keysFrom : Nat → List UInt64 → List Nat
  | _, [] => []
  | i, w :: ws => (bits w).map (i * 64 + ·) ++ keysFrom (i + 1) ws

theorem mem_keysFrom : k ∈ keysFrom i ws ↔ i ≤ k / 64 ∧ testBit (ws.getD (k / 64 - i) 0) (k % 64) = true := by
  induction ws generalizing i with
  | nil => simp [keysFrom, testBit_zero]
  | cons w ws ih =>
    have hword : k ∈ (bits w).map (i * 64 + ·) ↔ k / 64 = i ∧ testBit w (k % 64) = true := by
      simp only [List.mem_map, mem_bits]
      constructor
      · rintro ⟨j, ⟨hj, hbit⟩, rfl⟩
        rw [show (i * 64 + j) / 64 = i by omega, show (i * 64 + j) % 64 = j by omega]
        exact ⟨rfl, hbit⟩
      · rintro ⟨rfl, hbit⟩
        exact ⟨k % 64, ⟨Nat.mod_lt _ (by decide), hbit⟩, by omega⟩
    rw [keysFrom, List.mem_append, hword, ih]
    obtain hlt | rfl | hgt := Nat.lt_trichotomy (k / 64) i
    · omega
    · simp
    · obtain ⟨d, hd⟩ : ∃ d, k / 64 - i = d + 1 := ⟨k / 64 - i - 1, by omega⟩
      have hd' : k / 64 - (i + 1) = d := by omega
      have hne : k / 64 ≠ i := by omega
      simp [hd, hd', hne, Nat.le_of_lt hgt, Nat.succ_le_of_lt hgt]

theorem pairwise_keysFrom (i : Nat) (ws : List UInt64) : (keysFrom i ws).Pairwise (· < ·) := by
  induction ws generalizing i with
  | nil => exact .nil
  | cons w ws ih =>
    refine List.pairwise_append.mpr ⟨(pairwise_bits w).map _ (fun _ _ h => Nat.add_lt_add_left h _), ih _, ?_⟩
    intro a ha b hb
    obtain ⟨j, hj, rfl⟩ := List.mem_map.mp ha
    have hlow := (mem_bits.mp hj).1
    have hhigh := (mem_keysFrom.mp hb).1
    omega

/-- The members in ascending order. -/
def keys (s : BitSet) : List Nat :=
  keysFrom 0 s.wordList

theorem mem_keys {s : BitSet} : k ∈ s.keys ↔ s.contains k = true := by
  simp [keys, mem_keysFrom, contains]

theorem pairwise_keys (s : BitSet) : s.keys.Pairwise (· < ·) :=
  pairwise_keysFrom 0 s.wordList

theorem size_eq_length (s : BitSet) : s.size = s.keys.length := by
  have hwords : ∀ (ws : List UInt64) (i n : Nat),
      ws.foldl (fun n w => n + count w) n = n + (keysFrom i ws).length := by
    intro ws
    induction ws with
    | nil => simp [keysFrom]
    | cons w ws ih =>
      intro i n
      rw [List.foldl_cons, ih (i + 1), keysFrom, List.length_append, List.length_map, length_bits, Nat.add_assoc]
  rw [size, hwords s.wordList 0, Nat.zero_add, keys]

end Keys

section Visits

variable {σ : Type} (visit : σ → Nat → σ × Bool)

/-- Visits keys from the left and stops right after the first visit that asks for no more. -/
def visitWhile (st : σ) : List Nat → σ × Bool
  | [] => (st, true)
  | k :: ks =>
    match visit st k with
    | (st, true) => visitWhile st ks
    | (st, false) => (st, false)

theorem visitWhile_append (st : σ) (ks ls : List Nat) : visitWhile visit st (ks ++ ls) =
    match visitWhile visit st ks with
    | (st, true) => visitWhile visit st ls
    | (st, false) => (st, false) := by
  induction ks generalizing st with
  | nil => rfl
  | cons k ks ih =>
    rw [List.cons_append, visitWhile, visitWhile]
    split
    · exact ih _
    · rfl

/-- Taking the lowest bit again and again visits all bits of a word in order. -/
theorem walkWord_eq (i : Nat) (st : σ) (w : UInt64) :
    walkWord visit i st w = visitWhile visit st ((bits w).map (i * 64 + ·)) := by
  fun_induction walkWord visit i st w with
  | case1 st => rw [bits_zero]; rfl
  | case2 st w hw st' hvisit ih => rw [bits_eq_cons hw, List.map_cons, visitWhile, hvisit, ih]
  | case3 st w hw st' hvisit => rw [bits_eq_cons hw, List.map_cons, visitWhile, hvisit]

theorem walk_eq (s : BitSet) (st : σ) : s.walk visit st = (visitWhile visit st s.keys).1 := by
  have hwords : ∀ (ws : List UInt64) (i : Nat) (st : σ),
      walkWords visit i st ws = (visitWhile visit st (keysFrom i ws)).1 := by
    intro ws
    induction ws with
    | nil => intro i st; rfl
    | cons w ws ih =>
      intro i st
      rw [walkWords, walkWord_eq, keysFrom, visitWhile_append]
      obtain ⟨st', more⟩ := visitWhile visit st ((bits w).map (i * 64 + ·))
      cases more with
      | false => rfl
      | true => exact ih _ _
  exact hwords s.wordList 0 st

theorem toList_eq_keys (s : BitSet) : s.toList = s.keys := by
  have hall : ∀ (ks taken : List Nat), visitWhile (fun ks k => (ks ++ [k], true)) taken ks = (taken ++ ks, true) := by
    intro ks
    induction ks with
    | nil => simp [visitWhile]
    | cons k ks ih =>
      intro taken
      exact (ih (taken ++ [k])).trans (by rw [List.append_assoc, List.singleton_append])
  rw [toList, walk_eq, hall, List.nil_append]

end Visits

/-- A bit set shows the members of a finite set: in membership, in its size, and in walks over it,
    which go through the members in ascending order. -/
structure Represents (s : BitSet) (S : Finset Nat) : Prop where
  contains : ∀ k, s.contains k = true ↔ k ∈ S
  size : s.size = S.card
  walk : ∀ {σ : Type} (visit : σ → Nat → σ × Bool) (st : σ), s.walk visit st = (visitWhile visit st S.sort).1

/-- Membership determines all else, however many words there are and whatever was done before. -/
theorem Represents.of_contains {s : BitSet} {S : Finset Nat} (h : ∀ k, s.contains k = true ↔ k ∈ S) :
    s.Represents S := by
  have hkeys : s.keys = S.sort := (pairwise_keys s).eq_of_mem_iff S.sortedLT_sort.pairwise fun k => by
    rw [mem_keys, h, Finset.mem_sort]
  exact ⟨h, by rw [size_eq_length, hkeys, Finset.length_sort], fun visit st => by rw [walk_eq, hkeys]⟩

namespace Action

/-- The name of the set that an action changes. -/
def target : Action → String
  | make name | copy _ name | set name _ | setAll name _ | clear name _ => name

/-- The keys that an action names. -/
def keys : Action → List Int
  | make _ | copy _ _ => []
  | set _ k | clear _ k => [k]
  | setAll _ ks => ks

/-- The members that an action says a set has after it. -/
def members (S : String → Finset Nat) : Action → Finset Nat
  | make _ => ∅
  | copy source _ => S source
  | set name k => S name ∪ {k.toNat}
  | setAll name ks => S name ∪ (ks.map Int.toNat).toFinset
  | clear name k => (S name).erase k.toNat

end Action

/-- Performs actions from the left. -/
def run (g : Growth) (m : Memory) : List Action → Except NegativeKey Memory
  | [] => .ok m
  | a :: as =>
    match a.perform g m with
    | (m, .ok ()) => run g m as
    | (_, .error e) => .error e

/-- The finite sets that actions describe. -/
def described (S : String → Finset Nat) : List Action → String → Finset Nat
  | [] => S
  | a :: as => described (Function.update S a.target (a.members S)) as

section Runs

variable {g : Growth} {m m' : Memory} {S : String → Finset Nat} {as bs : List Action} {name : String}

/-- What is done to one set shows in that set only. -/
theorem represents_update {T : Finset Nat} (hsets : ∀ name, (m.view name).Represents (S name))
    (hothers : ∀ other ≠ name, m'.view other = m.view other)
    (hself : ∀ k, (m'.view name).contains k = true ↔ k ∈ T) (x : String) :
    (m'.view x).Represents (Function.update S name T x) := by
  rw [Function.update_apply]
  split
  · next hx => exact hx ▸ .of_contains hself
  · next hx => exact hothers x hx ▸ hsets x

theorem Action.perform_represents {a : Action} (hkeys : ∀ k ∈ a.keys, 0 ≤ k) (howned : m.Owned)
    (hsets : ∀ name, (m.view name).Represents (S name)) :
    ∃ m', a.perform g m = (m', .ok ()) ∧ m'.Owned ∧
      ∀ name, (m'.view name).Represents (Function.update S a.target (a.members S) name) := by
  have hadd : ∀ name ks, (∀ k ∈ ks, 0 ≤ k) → ∃ m', m.setAll g name ks = (m', .ok ()) ∧ m'.Owned ∧
      ∀ x, (m'.view x).Represents (Function.update S name (S name ∪ (ks.map Int.toNat).toFinset) x) := by
    intro name ks hks
    obtain ⟨m', hm', howned', hothers, hself⟩ := howned.setAll g name hks
    refine ⟨m', hm', howned', represents_update hsets hothers fun k => ?_⟩
    simp [hself, (hsets name).contains, or_comm]
  cases a with
  | make name =>
    have hkept : m.Extends m.make.2 := Memory.allocate_extends ..
    have hnew : m.New m.make.2 m.make.1.place := ⟨m.allocated, le_rfl, Nat.lt_succ_self _, rfl⟩
    obtain ⟨howned', hothers, hself⟩ := howned.assign hkept hnew rfl (congrArg List.length m.arrays_make)
    refine ⟨m.make.2.assign name m.make.1, rfl, howned', represents_update hsets hothers fun k => ?_⟩
    rw [target, hself, Memory.arrays_make]
    simpa [members] using (contains_append_zeros [] 2 k).trans (contains_empty k)
  | copy source name =>
    obtain ⟨c, m', hcopy, hkept, hnew, hlength, hwords, hmembers⟩ := howned.copy g source
    obtain ⟨howned', hothers, hself⟩ := howned.assign hkept hnew hlength hwords
    refine ⟨m'.assign name c, by rw [perform, hcopy], howned', represents_update hsets hothers fun k => ?_⟩
    rw [target, hself, hmembers, (hsets source).contains, members]
  | set name k => simpa [perform, target, members] using hadd name [k] hkeys
  | setAll name ks => exact hadd name ks hkeys
  | clear name k =>
    have hkey : key k = .ok k.toNat := if_neg (Int.not_lt.mpr (hkeys k (by simp [keys])))
    obtain ⟨howned', hothers, hself⟩ := howned.clear name k.toNat
    refine ⟨_, by rw [perform, hkey], howned', represents_update hsets hothers fun j => ?_⟩
    rw [target, hself]
    simp [(hsets name).contains, members]

theorem run_describes (hkeys : ∀ a ∈ as, ∀ k ∈ a.keys, 0 ≤ k) (howned : m.Owned)
    (hsets : ∀ name, (m.view name).Represents (S name)) :
    ∃ ends, run g m as = .ok ends ∧ ∀ name, (ends.view name).Represents (described S as name) := by
  induction as generalizing m S with
  | nil => exact ⟨m, rfl, hsets⟩
  | cons a as ih =>
    obtain ⟨m', hm', howned', hsets'⟩ := Action.perform_represents (hkeys a List.mem_cons_self) howned hsets
    rw [run, hm']
    exact ih (fun b hb => hkeys b (List.mem_cons_of_mem _ hb)) howned' hsets'

theorem described_append : described S (as ++ bs) = described (described S as) bs := by
  induction as generalizing S with
  | nil => rfl
  | cons a as ih => exact ih

/-- A set that no action has as its target stays as it is. -/
theorem described_of_untargeted (has : ∀ a ∈ as, a.target ≠ name) : described S as name = S name := by
  induction as generalizing S with
  | nil => rfl
  | cons a as ih =>
    rw [described, ih (fun b hb => has b (List.mem_cons_of_mem _ hb)),
      Function.update_of_ne (has a List.mem_cons_self).symm]

end Runs

/-- Whatever is done with keys that are not negative, it is accepted, and each set then shows the
    members that were described for it. -/
theorem run_represents (g : Growth) {as : List Action} (hkeys : ∀ a ∈ as, ∀ k ∈ a.keys, 0 ≤ k) :
    ∃ m, run g {} as = .ok m ∧
      (∀ name, (m.view name).Represents (described (fun _ => ∅) as name)) ∧
      ∀ before source target behind, as = before ++ .copy source target :: behind →
        ((∀ a ∈ behind, a.target ≠ target) → (m.view target).Represents
          (described (fun _ => ∅) before source)) ∧
        (source ≠ target → (∀ a ∈ behind, a.target ≠ source) →
          (m.view source).Represents (described (fun _ => ∅) before source)) := by
  obtain ⟨m, hrun, hsets⟩ := run_describes (g := g) hkeys Memory.owned_empty
    fun _ => .of_contains (s := untouched) (S := ∅) (by simp)
  refine ⟨m, hrun, hsets, ?_⟩
  rintro before source target behind rfl
  simp only [described_append, described, Action.target, Action.members] at hsets
  constructor
  · intro huntargeted
    simpa [described_of_untargeted huntargeted] using hsets target
  · intro hne huntargeted
    simpa [described_of_untargeted huntargeted, hne] using hsets source

/-- Words are grown, cleared and copied, and a copy keeps what is removed from its original. -/
theorem run_represents_copied :
    let as : List Action := [.setAll "s" [1, 5, 64, 200], .copy "s" "c", .clear "s" 5, .set "s" 640, .clear "s" 10000]
    described (fun _ => ∅) as "s" = {1, 64, 200, 640} ∧ described (fun _ => ∅) as "c" = {1, 5, 64, 200} ∧
      ∃ m, run .doubling {} as = .ok m ∧ (m.view "s").Represents {1, 64, 200, 640} ∧
        (m.view "c").Represents {1, 5, 64, 200} := by
  intro as
  have hs : described (fun _ => ∅) as "s" = {1, 64, 200, 640} := by decide +kernel
  have hc : described (fun _ => ∅) as "c" = {1, 5, 64, 200} := by decide +kernel
  have hkeys : ∀ a ∈ as, ∀ k ∈ a.keys, 0 ≤ k := by decide
  obtain ⟨m, hrun, hsets, -⟩ := run_represents .doubling hkeys
  exact ⟨hs, hc, m, hrun, hs ▸ hsets "s", hc ▸ hsets "c"⟩

end TreeCompiler.BitSet

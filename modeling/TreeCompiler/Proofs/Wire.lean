import Mathlib.Algebra.Group.Nat.Defs
import TreeCompiler.Proofs.Members

/-!
Wire forms of bit sets can be read back. A reader of open arrays finds the members in ascending order,
so the wire form shows the members of a set and nothing of how it came about.
-/

namespace TreeCompiler

namespace Wire

/-- Reads bytes that continue a number, high byte first. -/
def readBigEndian? : Nat → Nat → Bytes → Option (Nat × Bytes)
  | 0, n, rest => some (n, rest)
  | _ + 1, _, [] => none
  | width + 1, n, b :: rest => readBigEndian? width (n * 256 + b.toNat) rest

/-- Reads an integer that is not negative. -/
def readInt? : Bytes → Option (Nat × Bytes)
  | [] => none
  | b :: rest =>
    if b.toNat < 24 then some (b.toNat, rest)
    else if b = 24 then readBigEndian? 1 0 rest
    else if b = 25 then readBigEndian? 2 0 rest
    else if b = 26 then readBigEndian? 4 0 rest
    else if b = 27 then readBigEndian? 8 0 rest
    else none

/-- Reads integers up to the mark that ends an open array. -/
def readInts? : Nat → Bytes → Option (List Nat × Bytes)
  | 0, _ => none
  | steps + 1, bytes =>
    if bytes.head? = some 0xff then some ([], bytes.tail)
    else do
      let (n, rest) ← readInt? bytes
      let (ns, rest) ← readInts? steps rest
      return (n :: ns, rest)

/-- Reads an open array of integers that are not negative. -/
def readOpenArray? : Bytes → Option (List Nat × Bytes)
  | [] => none
  | b :: rest => if b = 0x9f then readInts? rest.length rest else none

variable {n : Nat}

theorem readBigEndian?_bigEndian (width more m n : Nat) (rest : Bytes) :
    readBigEndian? (width + more) m (bigEndian width n ++ rest) =
      readBigEndian? more (m * 256 ^ width + n % 256 ^ width) rest := by
  induction width generalizing n more rest with
  | zero => simp [bigEndian, Nat.mod_one]
  | succ width ih =>
    have hvalue : (m * 256 ^ width + n / 256 % 256 ^ width) * 256 + n % 256 =
        m * 256 ^ (width + 1) + n % 256 ^ (width + 1) := by
      rw [Nat.pow_succ', Nat.mod_mul, Nat.add_mul, Nat.mul_assoc, Nat.mul_comm (256 ^ width) 256]
      omega
    rw [bigEndian, List.append_assoc, Nat.add_right_comm, Nat.add_assoc, ih, List.singleton_append, readBigEndian?,
      UInt8.toNat_ofNat', hvalue]

theorem readBigEndian?_of_lt {width : Nat} (hn : n < 256 ^ width) (rest : Bytes) :
    readBigEndian? width 0 (bigEndian width n ++ rest) = some (n, rest) := by
  have hread := readBigEndian?_bigEndian width 0 0 n rest
  rwa [Nat.zero_mul, Nat.zero_add, Nat.mod_eq_of_lt hn] at hread

/-- Reading an integer undoes writing it, whatever follows. -/
theorem readInt?_int (hn : n < 0x10000000000000000) (rest : Bytes) : readInt? (int n ++ rest) = some (n, rest) := by
  rw [int, if_pos (Int.natCast_nonneg n), Int.toNat_natCast, tag]
  split
  · next hsmall =>
    have hlead : (lead .int n).toNat = n := by
      rw [lead, Major.code, Nat.zero_mul, Nat.zero_add, UInt8.toNat_ofNat']
      omega
    rw [List.singleton_append, readInt?, hlead, if_pos hsmall]
  split
  · exact readBigEndian?_of_lt (by omega) rest
  split
  · exact readBigEndian?_of_lt (by omega) rest
  split
  · exact readBigEndian?_of_lt (by omega) rest
  · exact readBigEndian?_of_lt (by omega) rest

/-- An integer does not begin with the mark that ends an array. -/
theorem head?_int_ne_break (n : Nat) (rest : Bytes) : (int n ++ rest).head? ≠ some 0xff := by
  rw [int, if_pos (Int.natCast_nonneg n), Int.toNat_natCast, tag]
  split
  · next hsmall =>
    intro hhead
    have hlead := congrArg UInt8.toNat (Option.some.inj hhead)
    rw [lead, Major.code, Nat.zero_mul, Nat.zero_add, UInt8.toNat_ofNat'] at hlead
    simp at hlead
    omega
  · split_ifs <;> exact fun hhead => absurd (Option.some.inj hhead) (by decide)

theorem length_int_pos (n : Nat) : 0 < (int n).length := by
  rw [int, if_pos (Int.natCast_nonneg n), tag]
  split_ifs <;> simp

theorem readInts?_flatten {ns : List Nat} (hns : ∀ n ∈ ns, n < 0x10000000000000000) (rest : Bytes) {steps : Nat}
    (hsteps : ns.length < steps) :
    readInts? steps ((ns.map fun (n : Nat) => int n).flatten ++ 0xff :: rest) = some (ns, rest) := by
  induction ns generalizing steps with
  | nil =>
    obtain ⟨steps, rfl⟩ := Nat.exists_eq_add_of_lt hsteps
    simp [readInts?]
  | cons n ns ih =>
    cases steps with
    | zero => cases hsteps
    | succ steps =>
      have hrest := ih (fun m hm => hns m (List.mem_cons_of_mem _ hm)) (Nat.lt_of_succ_lt_succ hsteps)
      rw [List.map_cons, List.flatten_cons, List.append_assoc, readInts?, if_neg (head?_int_ne_break n _),
        readInt?_int (hns n List.mem_cons_self)]
      simp only [Option.bind_eq_bind, Option.bind_some, hrest]
      rfl

/-- Reading an open array undoes writing it. -/
theorem readOpenArray?_openArray {ns : List Nat} (hns : ∀ n ∈ ns, n < 0x10000000000000000) :
    readOpenArray? (openArray (ns.map fun (n : Nat) => int n)) = some (ns, []) := by
  have hlength : ns.length ≤ (ns.map fun (n : Nat) => int n).flatten.length := by
    induction ns with
    | nil => exact Nat.zero_le _
    | cons n ns ih =>
      have hpos := length_int_pos n
      have hrest := ih fun m hm => hns m (List.mem_cons_of_mem _ hm)
      rw [List.map_cons, List.flatten_cons, List.length_append, List.length_cons]
      omega
  have hsteps : ns.length < ((ns.map fun (n : Nat) => int n).flatten ++ [0xff]).length := by
    rw [List.length_append]
    exact Nat.lt_succ_of_le hlength
  exact readInts?_flatten hns [] hsteps

end Wire

namespace BitSet

/-- The members are numbers of the machine word. -/
def Fits (s : BitSet) : Prop :=
  ∀ k, s.contains k = true → k < 0x10000000000000000

theorem wire_of_written {s : BitSet} (hwritten : s.words.isSome = true) :
    s.wire = Wire.openArray (s.keys.map fun (k : Nat) => Wire.int k) := by
  obtain ⟨ws, hws⟩ := Option.isSome_iff_exists.mp hwritten
  rw [wire, hws, toList_eq_keys]

theorem readOpenArray?_wire {s : BitSet} (hwritten : s.words.isSome = true) (hfits : s.Fits) :
    Wire.readOpenArray? s.wire = some (s.keys, []) := by
  rw [wire_of_written hwritten]
  exact Wire.readOpenArray?_openArray fun k hk => hfits k (mem_keys.mp hk)

/-- The wire form of a set that was written to is read to its end as the members in ascending order.
    -/
theorem wire_read_back {s : BitSet} (hwritten : s.words.isSome = true) (hfits : s.Fits) :
    (∃ ks, Wire.readOpenArray? s.wire = some (ks, []) ∧ ks.Pairwise (· < ·) ∧ ∀ k, k ∈ ks ↔
      s.contains k = true) ∧
      ∀ t : BitSet, t.words.isSome = true → t.Fits →
        (s.wire = t.wire ↔ ∀ k, s.contains k = t.contains k) := by
  have hread := readOpenArray?_wire hwritten hfits
  refine ⟨⟨s.keys, hread, pairwise_keys s, fun k => mem_keys⟩, fun t htwritten htfits =>
    ⟨fun hwire k => ?_, fun hsame => ?_⟩⟩
  · have hread' := readOpenArray?_wire htwritten htfits
    rw [hwire, hread', Option.some.injEq, Prod.mk.injEq] at hread
    rw [Bool.eq_iff_iff, ← mem_keys, ← mem_keys, hread.1]
  · have hkeys : s.keys = t.keys := (pairwise_keys s).eq_of_mem_iff (pairwise_keys t) fun k => by
      rw [mem_keys, mem_keys, hsame]
    rw [wire_of_written hwritten, wire_of_written htwritten, hkeys]

/-- Keys of all widths, up to the largest, and a set with other words for the same members. -/
theorem wire_read_back_wide :
    let s := ((((empty.insert 23).insert 0xff).insert 0x100).insert 0x10000).insert 0x7fffffffffffffff
    let t := (s.insert 0x100000000).erase 0x100000000
    s.Fits ∧ t.Fits ∧ (∃ ks, Wire.readOpenArray? s.wire = some (ks, []) ∧ ks.Pairwise (· < ·) ∧
      ∀ k, k ∈ ks ↔ s.contains k = true) ∧ s.wire = t.wire := by
  intro s t
  have hmem : ∀ k, s.contains k = true → k ∈ [23, 0xff, 0x100, 0x10000, 0x7fffffffffffffff] := by
    intro k hk
    simp only [s, contains_insert, contains_empty] at hk
    grind
  have hsame : ∀ k, s.contains k = t.contains k := by
    intro k
    have hnot : s.contains 0x100000000 = false := eq_false_of_ne_true fun h => absurd (hmem _ h) (by decide)
    by_cases hk : k = 0x100000000
    · simp [t, contains_erase, hk, hnot]
    · simp [t, contains_erase, contains_insert, hk]
  have hs : s.Fits := by
    intro k hk
    have hall : ∀ k ∈ [23, 0xff, 0x100, 0x10000, 0x7fffffffffffffff], k < 0x10000000000000000 := by decide
    exact hall k (hmem k hk)
  have ht : t.Fits := fun k hk => hs k ((hsame k).trans hk)
  obtain ⟨hread, hiff⟩ := wire_read_back (s := s) rfl hs
  exact ⟨hs, ht, hread, (hiff t rfl ht).mpr hsame⟩

end BitSet

end TreeCompiler

import TreeCompiler.BitSet

/-!
Bit sets in memory. A set is a variable with room for two words of its own and a slice, through which its
words are read and written. Slices of one array share its words, so a set that took over the slice of
another one would change with it.
-/

namespace TreeCompiler.BitSet

/-- Where an array of words lies: in the variable of a name, or apart from all variables. -/
inductive Place where
  | inline (name : String)
  | allocated (n : Nat)
  deriving DecidableEq, Repr

/-- Shows the first words of the array at a place, and may be extended up to its capacity. -/
structure Slice where
  place : Place
  length : Nat
  capacity : Nat
  deriving DecidableEq, Repr

/-- The same array, up to its capacity. -/
def Slice.full (s : Slice) : Slice :=
  { s with length := s.capacity }

/-- The capacity that an array gets when it is too small for one more word. -/
structure Growth where
  next : Nat → Nat
  lt_next : ∀ n, n < next n

/-- Arrays double their capacity. -/
def Growth.doubling : Growth where
  next n := n + max n 1
  lt_next n := by omega

/-- The slices of the variables, the words of the arrays, and how many arrays were allocated. -/
structure Memory where
  slices : String → Option Slice := fun _ => none
  arrays : Place → List UInt64 := fun _ => [0, 0]
  allocated : Nat := 0

namespace Memory

/-- The words that a slice shows. -/
def words (m : Memory) (s : Slice) : List UInt64 :=
  (m.arrays s.place).take s.length

/-- The set that a variable is. -/
def view (m : Memory) (name : String) : BitSet :=
  ⟨(m.slices name).map m.words⟩

/-- Writes the array at a place. -/
def write (m : Memory) (place : Place) (ws : List UInt64) : Memory :=
  { m with arrays := fun p => if p = place then ws else m.arrays p }

/-- Gives a variable a slice. -/
def point (m : Memory) (name : String) (s : Slice) : Memory :=
  { m with slices := fun x => if x = name then some s else m.slices x }

/-- A slice of a new array. -/
def allocate (m : Memory) (length capacity : Nat) (ws : List UInt64) : Slice × Memory :=
  (⟨.allocated m.allocated, length, capacity⟩,
    { m.write (.allocated m.allocated) ws with allocated := m.allocated + 1 })

/-- Appends a word: to the array itself where it has room, and else to a larger copy of what the slice
    shows. -/
def append (g : Growth) (m : Memory) (s : Slice) (w : UInt64) : Slice × Memory :=
  if s.length < s.capacity then
    ({ s with length := s.length + 1 }, m.write s.place ((m.arrays s.place).set s.length w))
  else
    m.allocate (s.length + 1) (g.next s.capacity)
      (m.words s ++ w :: List.replicate (g.next s.capacity - (s.length + 1)) 0)

theorem append_full (g : Growth) (m : Memory) (s : Slice) (w : UInt64) :
    m.append g s.full w = m.allocate (s.capacity + 1) (g.next s.capacity)
      (m.words s.full ++ w :: List.replicate (g.next s.capacity - (s.capacity + 1)) 0) :=
  if_neg (Nat.lt_irrefl _)

/-- Appends zero words until a slice has room for an index, and extends it to its capacity. -/
def grow (g : Growth) (m : Memory) (s : Slice) (i : Nat) : Slice × Memory :=
  if i < s.capacity then (s.full, m)
  else grow g (m.append g s.full 0).2 (m.append g s.full 0).1 i
termination_by i + 1 - s.capacity
decreasing_by
  rw [append_full]
  have := g.lt_next s.capacity
  simp only [allocate]
  omega

/-- The slice of a variable, which is its own room if it was never written to. -/
def slice (m : Memory) (name : String) : Slice :=
  (m.slices name).getD ⟨.inline name, 2, 2⟩

/-- Adds a key to the set of a variable. -/
def set (g : Growth) (m : Memory) (name : String) (k : Nat) : Memory :=
  let (s, m) := m.grow g (m.slice name) (k / 64)
  (m.point name s).write s.place (updateWord (· ||| bit (k % 64)) (k / 64) (m.arrays s.place))

/-- Adds keys from the left until one of them is refused. -/
def setAll (g : Growth) (m : Memory) (name : String) : List Int → Memory × Except NegativeKey Unit
  | [] => (m, .ok ())
  | k :: ks =>
    match key k with
    | .ok n => (m.set g name n).setAll g name ks
    | .error e => (m, .error e)

/-- Removes a key from what a slice shows. -/
def clear (m : Memory) (s : Option Slice) (k : Nat) : Memory :=
  match s with
  | some s =>
    if k / 64 < s.length then
      m.write s.place (updateWord (· &&& ~~~bit (k % 64)) (k / 64) (m.arrays s.place))
    else m
  | none => m

/-- A slice for an empty set. -/
def make (m : Memory) : Slice × Memory :=
  m.allocate 2 2 [0, 0]

/-- A slice of its own for what another slice shows. -/
def copy (g : Growth) (m : Memory) (s : Option Slice) : Slice × Memory :=
  let (c, m) := m.make
  let (c, m) := m.grow g c (s.elim 0 Slice.length)
  let ws := s.elim [] m.words
  (c, m.write c.place (ws ++ (m.arrays c.place).drop ws.length))

/-- Makes a variable the set of a slice. -/
def assign (m : Memory) (name : String) (s : Slice) : Memory :=
  (m.point name s).write (.inline name) [0, 0]

end Memory

/-- What can be done with sets that have names. -/
inductive Action where
  | make (name : String)
  | copy (source target : String)
  | set (name : String) (k : Int)
  | setAll (name : String) (ks : List Int)
  | clear (name : String) (k : Int)
  deriving DecidableEq, Repr

/-- Performs an action. -/
def Action.perform (g : Growth) (m : Memory) : Action → Memory × Except NegativeKey Unit
  | make name =>
    let (s, m) := m.make
    (m.assign name s, .ok ())
  | copy source target =>
    let (s, m) := m.copy g (m.slices source)
    (m.assign target s, .ok ())
  | set name k => m.setAll g name [k]
  | setAll name ks => m.setAll g name ks
  | clear name k =>
    match key k with
    | .ok n => (m.clear (m.slices name) n, .ok ())
    | .error e => (m, .error e)

end TreeCompiler.BitSet

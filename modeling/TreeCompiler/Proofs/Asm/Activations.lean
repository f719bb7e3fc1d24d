import TreeCompiler.Proofs.Asm.ArrayCode
import TreeCompiler.Proofs.Asm.Calls
import TreeCompiler.Proofs.Asm.Placement

namespace TreeCompiler.Asm

open Code

variable {h : Host} {site : Site} {address : Bytes → Word} {before heap heap' : Heap} {arrays : List Word}
  {entry s t u : State} {o : Operand} {v : Word}

/-- A function runs with its arrays: its frame is intact, the arrays that exist are held in memory,
    those it built lie below its slots, and the others, which its caller knows, above its
    arguments. -/
structure Alive (site : Site) (before : Heap) (entry : State) (heap : Heap) (arrays : List Word)
    (s : State) : Prop where
  framed : Framed site before entry s
  settled : site.Settled s
  held : Held s.mem heap
  own : ∀ b ∈ arrays, ∀ ws, heap b = some ws → (s.regs .rsp).toNat ≤ b.toNat ∧
    b.toNat + 8 * (ws.length + 1) + 8 * site.frame.slots.size ≤ (s.regs .rbp).toNat
  shared : ∀ b, b ∉ arrays → ∀ ws, heap b = some ws → site.argsEnd entry ≤ b.toNat
  shape : (heap.free arrays).SameShape before
  bare : site.frame.hasArrays = false → arrays = []

namespace Alive

variable (halive : Alive site before entry heap arrays s)
include halive

/-- No array lies in the slots, in what a frame saves or in the arguments. -/
theorem not_covers_frame {c : Nat} (hlo : (s.regs .rbp).toNat ≤ c + 8 * site.frame.slots.size)
    (hhi : c < site.argsEnd entry) : ¬ heap.Covers c := by
  rintro ⟨b, ws, hb, hle, hlt⟩
  by_cases hown : b ∈ arrays
  · have := (halive.own b hown ws hb).2
    omega
  · have := halive.shared b hown ws hb
    omega

/-- No array lies below the top of the stack. -/
theorem not_covers_below {c : Nat} (hsmall : (s.regs .rsp).toNat < 2 ^ 63) (hc : c < (s.regs .rsp).toNat) :
    ¬ heap.Covers c := by
  rintro ⟨b, ws, hb, hle, hlt⟩
  by_cases hown : b ∈ arrays
  · have := (halive.own b hown ws hb).1
    omega
  · have hshared := halive.shared b hown ws hb
    have hsettled := halive.settled hsmall
    have hrbp := halive.framed.rbp_toNat
    unfold Site.argsEnd at hshared
    omega

/-- An array above the base of the frame existed before. -/
theorem covers_before {c : Nat} (hc : (s.regs .rbp).toNat ≤ c) (hcovers : heap.Covers c) : before.Covers c := by
  obtain ⟨b, ws, hb, hle, hlt⟩ := hcovers
  have hshared : b ∉ arrays := fun hown => by
    have := (halive.own b hown ws hb).2
    omega
  exact halive.shape.covers ⟨b, ws, Heap.free_eq_some_iff.mpr ⟨hshared, hb⟩, hle, hlt⟩

/-- A state in which memory differs only where nothing of the function lies. -/
theorem of_mem (hrsp : t.regs .rsp = s.regs .rsp) (hrbp : t.regs .rbp = s.regs .rbp)
    (hframe : ∀ c, (s.regs .rbp).toNat ≤ c → t.mem c = s.mem c)
    (harrays : ∀ c, heap.Covers c → t.mem c = s.mem c) :
    Alive site before entry heap arrays t where
  framed := halive.framed.of_mem hrbp fun c hc _ => hframe c hc
  settled := by
    unfold Site.Settled
    rw [hrsp, hrbp]
    exact halive.settled
  held := halive.held.congr harrays
  own b hown ws hb := by
    rw [hrsp, hrbp]
    exact halive.own b hown ws hb
  shared := halive.shared
  shape := halive.shape
  bare := halive.bare

theorem of_keeps (hkeeps : s.Keeps t) : Alive site before entry heap arrays t :=
  halive.of_mem hkeeps.rsp hkeeps.rbp (fun _ _ => by rw [hkeeps.mem]) fun _ _ => by rw [hkeeps.mem]

theorem wrote (hfits : site.frame.Fits) (hwrote : Wrote h site o v s t) : Alive site before entry heap arrays t := by
  have hrbp := halive.framed.rbp_le
  obtain ⟨offset, hoffset, haccess, hmem⟩ := hwrote.mem
  have hslot := slotAddress_bound hfits hoffset haccess hrbp
  refine halive.of_mem hwrote.rsp hwrote.rbp (fun c hc => hwrote.above hfits hrbp hc) fun c hcovers => ?_
  have hbase := halive.framed.rbp_toNat
  have houtside : ¬ (s.slotAddress offset ≤ c ∧ c < s.slotAddress offset + 8) := fun hin =>
    halive.not_covers_frame (by omega) (by unfold Site.argsEnd; omega) hcovers
  rw [hmem]
  by_cases hc : c < s.slotAddress offset
  · exact Memory.write_of_lt _ _ hc
  · exact Memory.write_of_le _ _ (by omega)

/-- Writing an element of an array. -/
theorem set {base position : Word} (hset : heap.set? base position v = some heap') (hregs : t.regs = s.regs)
    (hmem : t.mem = s.mem.write (base + position * 8 + 8).toNat v) : Alive site before entry heap' arrays t := by
  have hshape := Heap.SameShape.of_set? hset
  obtain ⟨ws, hws, hlt, _⟩ := Heap.set?_eq_some_iff.mp hset
  have haddress := halive.held.address_toNat hws hlt
  -- The element is a part of an array, so nothing else changes.
  have hother : ∀ c, ¬ heap.Covers c → t.mem c = s.mem c := by
    intro c hc
    have houtside : ¬ (base.toNat ≤ c ∧ c < base.toNat + 8 * (ws.length + 1)) := fun hin =>
      hc ⟨base, ws, hws, hin.1, hin.2⟩
    rw [hmem, haddress]
    by_cases hlow : c < base.toNat + 8 * (position.toNat + 1)
    · exact Memory.write_of_lt _ _ hlow
    · exact Memory.write_of_le _ _ (by omega)
  refine ⟨?_, ?_, ?_, fun b hown us hb => ?_, fun b hout us hb => ?_, ?_, halive.bare⟩
  · refine halive.framed.of_mem (by rw [hregs]) fun c hc hkept => hother c fun hcovers => ?_
    rcases hkept with hsaved | ⟨_, hbefore⟩
    · have hbase := halive.framed.rbp_toNat
      exact halive.not_covers_frame (by omega) (by unfold Site.argsEnd; omega) hcovers
    · exact hbefore (halive.covers_before hc hcovers)
  · unfold Site.Settled
    rw [hregs]
    exact halive.settled
  · rw [hmem]
    exact halive.held.set hset
  · obtain ⟨us', hb', hlength⟩ := hshape.exists_some hb
    rw [hregs, ← hlength]
    exact halive.own b hown us' hb'
  · obtain ⟨us', hb', _⟩ := hshape.exists_some hb
    exact halive.shared b hout us' hb'
  · exact (hshape.free arrays).trans halive.shape

/-- What the places of the function hold does not depend on the elements of arrays. -/
theorem contents_set {base position : Word} (hfits : site.frame.Fits) (hset : heap.set? base position v = some heap')
    (hregs : t.regs = s.regs) (hmem : t.mem = s.mem.write (base + position * 8 + 8).toNat v) :
    site.frame.contents t = site.frame.contents s := by
  obtain ⟨ws, hws, hlt, _⟩ := Heap.set?_eq_some_iff.mp hset
  have haddress := halive.held.address_toNat hws hlt
  have hroom := halive.held.room hws
  refine Frame.contents_write_outside hfits v ?_ (by rw [hregs]) hmem
  rw [haddress]
  by_cases hown : base ∈ arrays
  · have := (halive.own base hown ws hws).2
    omega
  · have hshared := halive.shared base hown ws hws
    have hrbp := halive.framed.rbp_toNat
    unfold Site.argsEnd at hshared
    omega

/-- A new array at the top of the stack. -/
theorem build {os : List Operand} (hbuilt : Built site address os s t) (harrays : site.frame.hasArrays = true) :
    heap (t.regs .rsp) = none ∧
      Alive site before entry
        (heap.build (t.regs .rsp) (os.map ((site.frame.contents s).word address)))
        (t.regs .rsp :: arrays) t := by
  have hroom := hbuilt.room
  have hclear := hbuilt.clear
  have hrbpLe := halive.framed.rbp_le
  have hsmall : (s.regs .rsp).toNat < 2 ^ 63 := by omega
  have hfresh : heap (t.regs .rsp) = none := by
    cases hb : heap (t.regs .rsp) with
    | none => rfl
    | some ws =>
      exact absurd ⟨_, ws, hb, Nat.le_refl _, by omega⟩
        (halive.not_covers_below hsmall (c := (t.regs .rsp).toNat) (by omega))
  -- The arrays that exist lie above the former top of the stack.
  have hkept : ∀ c, heap.Covers c → t.mem c = s.mem c := fun c hcovers =>
    hbuilt.mem c (Nat.le_of_not_lt fun hc => halive.not_covers_below hsmall hc hcovers)
  refine ⟨hfresh, ?_, fun _ => ?_, ?_, fun b hown ws hb => ?_, fun b hout ws hb => ?_, ?_, fun hnone => ?_⟩
  · exact halive.framed.of_mem hbuilt.rbp fun c hc _ => hbuilt.mem c (by omega)
  · rw [hbuilt.rbp]
    omega
  · refine (halive.held.congr hkept).build ?_ ?_ (fun i w hw => ?_) fun c hlo hhi => ?_
    · rw [List.length_map]
      omega
    · rw [List.length_map, hbuilt.length]
    · rw [List.getElem?_map, Option.map_eq_some_iff] at hw
      obtain ⟨o, ho, rfl⟩ := hw
      exact hbuilt.elems i o ho
    · rw [List.length_map] at hhi
      exact halive.not_covers_below hsmall (by omega)
  · rcases Heap.build_eq_some hb with ⟨rfl, rfl⟩ | ⟨hne, hb⟩
    · rw [List.length_map, hbuilt.rbp]
      omega
    · have hown := halive.own b ((List.mem_cons.mp hown).resolve_left hne) ws hb
      rw [hbuilt.rbp]
      omega
  · simp only [List.mem_cons, not_or] at hout
    rcases Heap.build_eq_some hb with ⟨heq, _⟩ | ⟨_, hb⟩
    · exact absurd heq hout.1
    · exact halive.shared b hout.2 ws hb
  · rw [Heap.free_build hfresh]
    exact halive.shape
  · rw [harrays] at hnone
    cases hnone

/-- After a call the stack is as it was from its top upwards, arrays apart, and those are the same
    as before, perhaps with other elements. -/
theorem called (hsmall : (s.regs .rsp).toNat < 2 ^ 63) (hrsp : t.regs .rsp = s.regs .rsp)
    (hrbp : t.regs .rbp = s.regs .rbp)
    (hmem : ∀ c, (s.regs .rsp).toNat ≤ c → ¬ heap.Covers c → t.mem c = s.mem c)
    (hheld : Held t.mem heap') (hshape : heap'.SameShape heap) : Alive site before entry heap' arrays t := by
  have hslots := halive.settled hsmall
  have hbase := halive.framed.rbp_toNat
  refine ⟨?_, ?_, hheld, fun b hown us hb => ?_, fun b hout us hb => ?_, ?_, halive.bare⟩
  · refine halive.framed.of_mem hrbp fun c hc hkept => hmem c (by omega) fun hcovers => ?_
    rcases hkept with hsaved | ⟨_, hbefore⟩
    · exact halive.not_covers_frame (by omega) (by unfold Site.argsEnd; omega) hcovers
    · exact hbefore (halive.covers_before hc hcovers)
  · unfold Site.Settled
    rw [hrsp, hrbp]
    exact halive.settled
  · obtain ⟨us', hb', hlength⟩ := hshape.exists_some hb
    rw [hrsp, hrbp, ← hlength]
    exact halive.own b hown us' hb'
  · obtain ⟨us', hb', _⟩ := hshape.exists_some hb
    exact halive.shared b hout us' hb'
  · exact (hshape.free arrays).trans halive.shape

theorem contents_called (hfits : site.frame.Fits) (hsmall : (s.regs .rsp).toNat < 2 ^ 63)
    (hrbp : t.regs .rbp = s.regs .rbp)
    (hmem : ∀ c, (s.regs .rsp).toNat ≤ c → ¬ heap.Covers c → t.mem c = s.mem c) :
    site.frame.contents t = site.frame.contents s := by
  have hslots := halive.settled hsmall
  have hbase := halive.framed.rbp_toNat
  refine Frame.contents_of_above hfits
    (show (s.regs .rbp).toNat - 8 * site.frame.slots.size + 8 * site.frame.slots.size ≤ _ by omega) hrbp
    fun c hlo hhi => hmem c (by omega) ?_
  exact halive.not_covers_frame (by omega) (by unfold Site.argsEnd; omega)

end Alive

end TreeCompiler.Asm

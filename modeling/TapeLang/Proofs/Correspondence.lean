import TapeLang.Proofs.AssemblyText
import TapeLang.Proofs.Semantics

/-!
How a processor stands for a machine. Register `r12` holds the address of the tape, `r13` the head,
and the reserved memory the cells; on the stack lie the registers of the caller. While updates are
held back, memory and `r13` lag behind the machine by just these updates.
-/
namespace TapeLang

open Assembly X86

namespace Tape

theorem setCurrent_setCurrent (t : Tape) (v w : UInt8) :
    (t.setCurrent v).setCurrent w = t.setCurrent w := by
  apply Tape.ext
  · intro i
    rw [get_setCurrent, get_setCurrent, get_setCurrent, head_setCurrent]
    by_cases h : i = t.head
    · rw [if_pos h, if_pos h]
    · rw [if_neg h, if_neg h, if_neg h]
  · rfl

theorem setCurrent_current (t : Tape) : t.setCurrent t.current = t := by
  apply Tape.ext
  · intro i
    rw [get_setCurrent]
    by_cases h : i = t.head
    · rw [if_pos h, h]
      rfl
    · rw [if_neg h]
  · rfl

end Tape

namespace Pending

/-- The tape once the updates have been carried out. -/
def apply : Pending → Tape → Tape
  | none, t => t
  | cell delta, t => t.setCurrent (t.current + delta)
  | head delta, t => t.setHead (t.head + delta)

theorem apply_join? {u v w : Pending} (h : u.join? v = some w) (t : Tape) :
    w.apply t = v.apply (u.apply t) := by
  cases u with
  | none => cases h
  | cell a =>
    cases v with
    | none => cases h
    | cell b =>
      obtain rfl := Option.some.inj h
      simp only [apply, Tape.current_setCurrent, Tape.setCurrent_setCurrent, UInt8.add_assoc]
    | head b => cases h
  | head a =>
    cases v with
    | none => cases h
    | cell b => cases h
    | head b =>
      obtain rfl := Option.some.inj h
      simp only [apply, Tape.head_setHead, UInt16.add_assoc]
      rfl

theorem update?_eq_none {p : Place} {delta : Nat} (h : update? p delta = .none) : delta = 0 := by
  unfold update? at h
  by_cases hzero : delta = 0
  · exact hzero
  · rw [if_neg hzero] at h
    split at h
    · cases h
    · split at h
      · cases h
      · split at h <;> cases h

/-- Updates that need no instruction change nothing. -/
theorem apply_of_instr?_eq_none {u : Pending} (h : u.instr? = .none) (t : Tape) :
    u.apply t = t := by
  cases u with
  | none => rfl
  | cell delta =>
    obtain rfl : delta = 0 := UInt8.toNat_inj.mp (update?_eq_none h)
    rw [apply, UInt8.add_zero, Tape.setCurrent_current]
  | head delta =>
    obtain rfl : delta = 0 := UInt16.toNat_inj.mp (update?_eq_none h)
    rw [apply, UInt16.add_zero]
    rfl

end Pending

/-- The address of a cell. -/
def cellAddress (base : UInt64) (i : UInt16) : UInt64 := base + i.toUInt64

theorem cellAddress_inj {base : UInt64} {i j : UInt16} :
    cellAddress base i = cellAddress base j ↔ i = j := by
  unfold cellAddress
  constructor
  · intro h
    have hindex : i.toUInt64 = j.toUInt64 := by grind
    exact UInt16.toUInt64_inj.mp hindex
  · intro h
    rw [h]

/-- What the code of a program relies on: lawful routines, a tape, labels that can be told apart,
and room on the stack. -/
structure Linked {α : Type} (t : Target) (lib : Library α) (file : File) (start : Cpu α) :
    Prop where
  lawful : lib.Lawful file (start.regs .rsp - File.savedBytes)
  tape : .zeroed t.tape cellCount ∈ file
  nodup : file.labels.Nodup
  apart : ∀ k, k < File.savedBytes → ¬ file.Reserves lib (start.regs .rsp - File.savedBytes + k)

/-- The processor after the registers of the caller have been saved. -/
def saved {α : Type} (start : Cpu α) : Cpu α := ((start.push .rbp).push .r12).push .r13

/-- The frame in which the code of a program works: the address of the tape, a head on it, and on
the stack the registers of the caller. -/
structure Framed {α : Type} (t : Target) (lib : Library α) (start c : Cpu α) : Prop where
  base : c.regs .r12 = lib.address t.tape
  head : (c.regs .r13).toNat < cellCount
  stack : c.regs .rsp = start.regs .rsp - File.savedBytes
  saved : ∀ k, k < File.savedBytes →
    c.memory (start.regs .rsp - File.savedBytes + k) =
      (saved start).memory (start.regs .rsp - File.savedBytes + k)

/-- The processor, entered in `start`, stands for the machine. -/
structure Agrees {α : Type} (o : Options) (lib : Library α) (start : Cpu α) (m : Machine)
    (c : Cpu α) : Prop where
  base : c.regs .r12 = lib.address o.target.tape
  head : c.regs .r13 = m.tape.head.toUInt64
  cells : ∀ i, c.memory (cellAddress (lib.address o.target.tape) i) = m.tape.get i
  stack : c.regs .rsp = start.regs .rsp - File.savedBytes
  saved : ∀ k, k < File.savedBytes →
    c.memory (start.regs .rsp - File.savedBytes + k) =
      (saved start).memory (start.regs .rsp - File.savedBytes + k)
  feed : m.feed = .ofBytes c.input
  output : m.sink.accepted.toList = c.output
  eof : m.eof = o.eof

/-- The processor stands for the machine before the updates that are held back. -/
def Holds {α : Type} (o : Options) (lib : Library α) (start : Cpu α) (u : Pending) (m : Machine)
    (c : Cpu α) : Prop :=
  ∃ tape, Agrees o lib start { m with tape } c ∧ u.apply tape = m.tape

section Agreement

variable {α : Type} {o : Options} {lib : Library α} {file : File} {start c : Cpu α} {m : Machine}

theorem X86.Cpu.regs_setReg_of_preserved {r r' : Reg} (hr : r.isPreserved = false)
    (hr' : r'.isPreserved = true) {v : UInt64} : (c.setReg r v).regs r' = c.regs r' := by
  have hne : r' ≠ r := by
    intro heq
    rw [heq, hr] at hr'
    cases hr'
  exact if_neg hne

theorem Linked.reserves_cell {t : Target} (hl : Linked t lib file start) (i : UInt16) :
    file.Reserves lib (cellAddress (lib.address t.tape) i) := by
  refine ⟨t.tape, cellCount, i.toNat, hl.tape, i.toNat_lt, ?_⟩
  rw [cellAddress, UInt64.ofNat_uInt16ToNat]

namespace Agrees

theorem framed (h : Agrees o lib start m c) : Framed o.target lib start c where
  base := h.base
  head := by
    rw [h.head, UInt16.toNat_toUInt64]
    exact m.tape.head.toNat_lt
  stack := h.stack
  saved := h.saved

theorem holds (h : Agrees o lib start m c) : Holds o lib start .none m c := ⟨m.tape, h, rfl⟩

theorem setReg (h : Agrees o lib start m c) {r : Reg} (hr : r.isPreserved = false) (v : UInt64) :
    Agrees o lib start m (c.setReg r v) := by
  have hother {r' : Reg} (hr' : r'.isPreserved = true) : (c.setReg r v).regs r' = c.regs r' :=
    Cpu.regs_setReg_of_preserved hr hr'
  exact ⟨(hother rfl).trans h.base, (hother rfl).trans h.head, h.cells,
    (hother rfl).trans h.stack, h.saved, h.feed, h.output, h.eof⟩

theorem next (h : Agrees o lib start m c) : Agrees o lib start m c.next :=
  ⟨h.base, h.head, h.cells, h.stack, h.saved, h.feed, h.output, h.eof⟩

theorem setFlag (h : Agrees o lib start m c) (zero : Bool) :
    Agrees o lib start m { c with zero } :=
  ⟨h.base, h.head, h.cells, h.stack, h.saved, h.feed, h.output, h.eof⟩

theorem setPc (h : Agrees o lib start m c) (pc : Nat) : Agrees o lib start m { c with pc } :=
  ⟨h.base, h.head, h.cells, h.stack, h.saved, h.feed, h.output, h.eof⟩

theorem address (h : Agrees o lib start m c) :
    c.regs .r12 + c.regs .r13 = cellAddress (lib.address o.target.tape) m.tape.head := by
  rw [h.base, h.head]
  rfl

theorem read_cell (h : Agrees o lib start m c) :
    c.read Place.cell.location = m.tape.current.toNat := by
  show (c.memory (c.regs .r12 + c.regs .r13)).toNat = _
  rw [h.address, h.cells]
  rfl

theorem write_cell (hl : Linked o.target lib file start) (h : Agrees o lib start m c) (v : Nat) :
    Agrees o lib start { m with tape := m.tape.setCurrent (UInt8.ofNat v) }
      (c.write v Place.cell.location) := by
  refine ⟨h.base, h.head, fun i => ?_, h.stack, fun k hk => ?_, h.feed, h.output, h.eof⟩
  · show (if _ = c.regs .r12 + c.regs .r13 then _ else _) = _
    rw [h.address, Tape.get_setCurrent, h.cells]
    simp only [cellAddress_inj]
  · show (if _ = c.regs .r12 + c.regs .r13 then _ else _) = _
    rw [h.address, h.saved k hk, if_neg]
    intro heq
    have hreserved := hl.reserves_cell m.tape.head
    rw [← heq] at hreserved
    exact hl.apart k hk hreserved

theorem compute_cell (hl : Linked o.target lib file start) (h : Agrees o lib start m c)
    (delta : UInt8) :
    Agrees o lib start { m with tape := m.tape.setCurrent (m.tape.current + delta) }
      (c.compute Place.cell.location (c.read Place.cell.location + delta.toNat)) := by
  have hvalue : UInt8.ofNat ((c.read Place.cell.location + delta.toNat) % 256) =
      m.tape.current + delta := by
    rw [h.read_cell]
    apply UInt8.toNat_inj.mp
    rw [UInt8.toNat_add]
    simp
  rw [← hvalue]
  exact (h.write_cell hl _).setFlag _

theorem compute_head (h : Agrees o lib start m c) (delta : UInt16) :
    Agrees o lib start { m with tape := m.tape.setHead (m.tape.head + delta) }
      (c.compute Place.head.location (c.read Place.head.location + delta.toNat)) := by
  have hlt := m.tape.head.toNat_lt
  have hnat : (c.regs .r13).toNat = m.tape.head.toNat := by rw [h.head, UInt16.toNat_toUInt64]
  have hread : c.read Place.head.location = m.tape.head.toNat := by
    show (c.regs .r13).toNat % 65536 = _
    omega
  refine ⟨h.base, ?_, h.cells, h.stack, h.saved, h.feed, h.output, h.eof⟩
  show Width.word.merge (c.regs .r13) _ = (m.tape.head + delta).toUInt64
  rw [hread]
  apply UInt64.toNat_inj.mp
  show (UInt64.ofNat ((c.regs .r13).toNat / 65536 * 65536 + _ % 65536)).toNat = _
  rw [UInt16.toNat_toUInt64, UInt16.toNat_add, hnat, UInt64.toNat_ofNat']
  show (_ + (m.tape.head.toNat + delta.toNat) % 65536 % 65536) % 2 ^ 64 = _
  omega

theorem routine (hl : Linked o.target lib file start) (h : Agrees o lib start m c) {c' : Cpu α}
    (hs : lib.Spares file c c') {m' : Machine} (htape : m'.tape = m.tape) (heof : m'.eof = m.eof)
    (hfeed : m'.feed = .ofBytes c'.input) (houtput : m'.sink.accepted.toList = c'.output) :
    Agrees o lib start m' c' := by
  refine ⟨(hs.regs .r12 rfl).trans h.base, ?_, fun i => ?_, (hs.regs .rsp rfl).trans h.stack,
    fun k hk => ?_, hfeed, houtput, heof.trans h.eof⟩
  · rw [htape]
    exact (hs.regs .r13 rfl).trans h.head
  · rw [htape, hs.reserved _ (hl.reserves_cell i), h.cells]
  · have hstack := hs.stack k hk
    rw [h.stack] at hstack
    rw [hstack, h.saved k hk]

end Agrees

theorem Holds.join {u v w : Pending} (h : Holds o lib start v m c) (hjoin : v.join? u = some w) :
    Holds o lib start w { m with tape := u.apply m.tape } c := by
  obtain ⟨tape, hagrees, happly⟩ := h
  refine ⟨tape, hagrees, ?_⟩
  rw [Pending.apply_join? hjoin, happly]

theorem Agrees.hold (h : Agrees o lib start m c) (u : Pending) :
    Holds o lib start u { m with tape := u.apply m.tape } c := ⟨m.tape, h, rfl⟩

end Agreement

section Frame

variable {α : Type} (start : Cpu α)

/-- What lies outside of the saved registers is as it was. -/
theorem saved_memory_of_apart {a : UInt64}
    (h : File.savedBytes ≤ a - (start.regs .rsp - File.savedBytes)) :
    (saved start).memory a = start.memory a := by
  let s := start.regs .rsp
  have hle : 24 ≤ (a - (s - 24)).toNat := UInt64.le_iff_toNat_le.mp h
  have hsub (k : UInt64) (hk : k.toNat ≤ 16) : 8 ≤ (a - (s - 24) - k).toNat := by
    rw [UInt64.toNat_sub_of_le _ _ (UInt64.le_iff_toNat_le.mpr (by omega))]
    omega
  have hrbp : 8 ≤ (a - (s - 8)).toNat := by
    rw [show a - (s - 8) = a - (s - 24) - 16 by grind]
    exact hsub 16 (by decide)
  have hr12 : 8 ≤ (a - (s - 8 - 8)).toNat := by
    rw [show a - (s - 8 - 8) = a - (s - 24) - 8 by grind]
    exact hsub 8 (by decide)
  have hr13 : 8 ≤ (a - (s - 8 - 8 - 8)).toNat := by
    rw [show a - (s - 8 - 8 - 8) = a - (s - 24) - 0 by grind]
    exact hsub 0 (by decide)
  exact (store_of_le _ hr13).trans ((store_of_le _ hr12).trans (store_of_le _ hrbp))

/-- The place of a register among the saved ones. -/
def savedAt : Saved → Nat
  | .r13 => 0
  | .r12 => 8
  | .rbp => 16

theorem load_saved (r : Saved) :
    load (saved start).memory (start.regs .rsp - File.savedBytes + UInt64.ofNat (savedAt r)) 8 =
      (start.regs r.reg).toNat := by
  let s := start.regs .rsp
  cases r with
  | r13 =>
    show load (saved start).memory (s - 24 + UInt64.ofNat 0) 8 = _
    rw [show s - 24 + UInt64.ofNat 0 = s - 8 - 8 - 8 by grind]
    exact load_store _
  | r12 =>
    have hapart : s - 24 + UInt64.ofNat 8 = s - 8 - 8 - 8 + UInt64.ofNat 8 := by grind
    refine (load_store_of_apart _ hapart (by decide) (by decide)).trans ?_
    rw [show s - 24 + UInt64.ofNat 8 = s - 8 - 8 by grind]
    exact load_store _
  | rbp =>
    have hr13 : s - 24 + UInt64.ofNat 16 = s - 8 - 8 - 8 + UInt64.ofNat 16 := by grind
    have hr12 : s - 24 + UInt64.ofNat 16 = s - 8 - 8 + UInt64.ofNat 8 := by grind
    refine (load_store_of_apart _ hr13 (by decide) (by decide)).trans
      ((load_store_of_apart _ hr12 (by decide) (by decide)).trans ?_)
    rw [show s - 24 + UInt64.ofNat 16 = s - 8 by grind]
    exact load_store _

variable {start}

theorem Framed.load_saved {t : Target} {lib : Library α} {c : Cpu α}
    (h : Framed t lib start c) (r : Saved) :
    load c.memory (c.regs .rsp + UInt64.ofNat (savedAt r)) 8 = (start.regs r.reg).toNat := by
  rw [← TapeLang.load_saved start r, h.stack]
  apply load_congr
  intro k hk
  have hlt : savedAt r + k < 24 := by
    cases r <;> simp only [savedAt] <;> omega
  have haddress : start.regs .rsp - File.savedBytes + UInt64.ofNat (savedAt r) + UInt64.ofNat k =
      start.regs .rsp - File.savedBytes + UInt64.ofNat (savedAt r + k) := by
    rw [UInt64.ofNat_add]
    grind
  rw [haddress]
  apply h.saved
  apply UInt64.lt_iff_toNat_lt.mpr
  rw [UInt64.toNat_ofNat_of_lt' (Nat.lt_trans hlt (by decide))]
  exact hlt

end Frame

end TapeLang

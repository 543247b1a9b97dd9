/-!
The tape: a ring of 65536 byte cells and a head on one of them. Cell values wrap at 256 and the
head wraps at the ends, so every operation is total.
-/
namespace TapeLang

/-- The number of cells, one for each value of the head. -/
abbrev cellCount : Nat := UInt16.size

structure Tape where
  cells : Vector UInt8 cellCount
  head : UInt16

namespace Tape

/-- All cells zero, the head on cell 0. -/
def blank : Tape := ⟨Vector.replicate cellCount 0, 0⟩

instance : Inhabited Tape := ⟨blank⟩

def get (t : Tape) (i : UInt16) : UInt8 := t.cells[i.toFin]

def current (t : Tape) : UInt8 := t.get t.head

def setCurrent (t : Tape) (v : UInt8) : Tape :=
  let i := t.head
  { t with cells := t.cells.set i.toFin v i.toFin.isLt }

def setHead (t : Tape) (i : UInt16) : Tape := { t with head := i }

def increment (t : Tape) : Tape := t.setCurrent (t.current + 1)

def decrement (t : Tape) : Tape := t.setCurrent (t.current - 1)

def moveLeft (t : Tape) : Tape := t.setHead (t.head - 1)

def moveRight (t : Tape) : Tape := t.setHead (t.head + 1)

/-- The cells that are not zero, by index. -/
def nonzero (t : Tape) : List (Nat × UInt8) :=
  ((t.cells.toList.zipIdx).filter fun c => c.1 ≠ 0).map fun c => (c.2, c.1)

def describe (t : Tape) : String := s!"Tape(head: {t.head.toNat}, current: {t.current.toNat})"

@[ext] theorem ext {s t : Tape} (hcells : ∀ i, s.get i = t.get i) (hhead : s.head = t.head) :
    s = t := by
  obtain ⟨sc, sh⟩ := s
  obtain ⟨tc, th⟩ := t
  obtain rfl : sh = th := hhead
  have hc : sc = tc := by
    apply Vector.ext
    intro i hi
    exact hcells (UInt16.ofNatLT i hi)
  rw [hc]

@[simp] theorem get_blank (i : UInt16) : blank.get i = 0 := by simp [get, blank]

@[simp] theorem head_blank : blank.head = 0 := rfl

@[simp] theorem head_setCurrent (t : Tape) (v : UInt8) : (t.setCurrent v).head = t.head := rfl

theorem get_setCurrent (t : Tape) (v : UInt8) (i : UInt16) :
    (t.setCurrent v).get i = if i = t.head then v else t.get i := by
  simp only [setCurrent, get, Fin.getElem_fin, Vector.getElem_set]
  simp only [← UInt16.toNat_inj, UInt16.toFin_val, eq_comm]

@[simp] theorem current_setCurrent (t : Tape) (v : UInt8) : (t.setCurrent v).current = v := by
  simp [current, get_setCurrent]

@[simp] theorem get_setHead (t : Tape) (i j : UInt16) : (t.setHead i).get j = t.get j := rfl

@[simp] theorem head_setHead (t : Tape) (i : UInt16) : (t.setHead i).head = i := rfl

end Tape

end TapeLang

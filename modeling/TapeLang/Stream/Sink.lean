/-!
Scripted output. A sink accepts bytes up to an optional limit and then either fails or accepts
nothing more. A single write may be interrupted or accept only part of what it is offered;
writing everything tries again until all is accepted or the sink gives up. What then has been
accepted depends on the room there was, and not on the interruptions or on the parts.
-/
namespace TapeLang

/-- Why writing failed: the sink said so, or it accepted nothing of what it was offered. -/
inductive WriteError where
  | refused (message : String)
  | nothingAccepted
  deriving DecidableEq, Repr, Inhabited

namespace WriteError

def message : WriteError → String
  | refused message => message
  | nothingAccepted => "failed to write whole buffer"

end WriteError

/-- What a sink does with a write once its limit is reached. -/
inductive WhenFull where
  | refuse (message : String)
  | acceptNothing
  deriving DecidableEq, Repr, Inhabited

inductive Acceptance where
  | accepted (count : Nat)
  | interrupted
  | failed (e : WriteError)
  deriving DecidableEq, Repr, Inhabited

namespace WhenFull

def answer : WhenFull → Acceptance
  | refuse message => .failed (.refused message)
  | acceptNothing => .accepted 0

/-- What this makes of an attempt to write everything. -/
def error : WhenFull → WriteError
  | refuse message => .refused message
  | acceptNothing => .nothingAccepted

end WhenFull

/-- For each write in turn it is given how many interruptions there are before it goes through, and
how many bytes it takes less than there is room for, though it takes at least one then. How often
the sink has been flushed is counted, whether or not that failed. -/
structure Sink where
  accepted : Array UInt8 := #[]
  limit : Option Nat := none
  whenFull : WhenFull := .refuse "closed"
  flushFailure : Option String := none
  flushes : Nat := 0
  interruptions : Nat → Nat := fun _ => 0
  shortfalls : Nat → Nat := fun _ => 0
  writes : Nat := 0
  waiting : Nat := interruptions 0

instance : Inhabited Sink := ⟨{}⟩

namespace Sink

/-- How many of `count` bytes there is still room for. -/
def room (s : Sink) (count : Nat) : Nat :=
  match s.limit with
  | none => count
  | some limit => min count (limit - s.accepted.size)

def interrupt (s : Sink) : Sink := { s with waiting := s.waiting - 1 }

/-- The sink after a write that went through and brought the given bytes. -/
def take (s : Sink) (bytes : List UInt8) : Sink :=
  { s with
    accepted := s.accepted ++ bytes
    writes := s.writes + 1
    waiting := s.interruptions (s.writes + 1) }

/-- How many of `count` bytes the next write takes if there is room for any. -/
def portion (s : Sink) (count : Nat) : Nat := max 1 (s.room count - s.shortfalls s.writes)

def offer (s : Sink) (bytes : List UInt8) : Acceptance × Sink :=
  if 0 < s.waiting then (.interrupted, s.interrupt)
  else if s.room bytes.length = 0 then (s.whenFull.answer, s.take [])
  else
    let n := s.portion bytes.length
    (.accepted n, s.take (bytes.take n))

theorem answer_ne_interrupted (w : WhenFull) : w.answer ≠ .interrupted := by
  cases w <;> simp [WhenFull.answer]

theorem offer_interrupted {s s' : Sink} {bytes : List UInt8}
    (h : s.offer bytes = (.interrupted, s')) : 0 < s.waiting ∧ s' = s.interrupt := by
  unfold offer at h
  split at h
  · next hw => exact ⟨hw, (Prod.mk.inj h).2.symm⟩
  · split at h
    · exact absurd (Prod.mk.inj h).1 (answer_ne_interrupted _)
    · simp at h

theorem waiting_offer {s s' : Sink} {bytes : List UInt8}
    (h : s.offer bytes = (.interrupted, s')) : s'.waiting < s.waiting := by
  obtain ⟨hw, rfl⟩ := offer_interrupted h
  exact Nat.sub_lt hw Nat.one_pos

/-- Write all the bytes, or fail having written as many of them as were accepted. -/
def writeAll (s : Sink) (bytes : List UInt8) : Except WriteError Unit × Sink :=
  if bytes = [] then (.ok (), s)
  else
    match h : s.offer bytes with
    | (.interrupted, s) => s.writeAll bytes
    | (.failed e, s) => (.error e, s)
    | (.accepted 0, s) => (.error .nothingAccepted, s)
    | (.accepted (n + 1), s) => s.writeAll (bytes.drop (n + 1))
termination_by (bytes.length, s.waiting)
decreasing_by
  · exact Prod.Lex.right _ (waiting_offer h)
  · next hne =>
    apply Prod.Lex.left
    have := List.length_pos_iff.mpr hne
    simp only [List.length_drop]
    omega

theorem room_le (s : Sink) (count : Nat) : s.room count ≤ count := by
  unfold room
  split <;> omega

/-- Bytes for which there was room take up as much of it. -/
theorem room_take (s : Sink) (bytes : List UInt8) (n : Nat) (hn : n ≤ s.room bytes.length) :
    (s.take (bytes.take n)).room (bytes.drop n).length = s.room bytes.length - n := by
  have hle := s.room_le bytes.length
  unfold room take at *
  cases hl : s.limit with
  | none => simp
  | some limit =>
    simp only [hl] at hn hle ⊢
    simp only [List.length_drop, ← Array.length_toList, Array.toList_appendList,
      List.length_append, List.length_take]
    omega

/-- An offer that is not interrupted meets the limit, or some of the bytes are taken. -/
theorem offer_eq {s s' : Sink} {bytes : List UInt8} {a : Acceptance}
    (h : s.offer bytes = (a, s')) (ha : a ≠ .interrupted) :
    s.room bytes.length = 0 ∧ a = s.whenFull.answer ∧ s' = s.take [] ∨
      ∃ n, 0 < n ∧ n ≤ s.room bytes.length ∧ a = .accepted n ∧ s' = s.take (bytes.take n) := by
  unfold offer at h
  split at h
  · exact absurd (Prod.mk.inj h).1.symm ha
  · split at h
    · next hn => exact .inl ⟨hn, (Prod.mk.inj h).1.symm, (Prod.mk.inj h).2.symm⟩
    · have hpos : 0 < s.portion bytes.length := by
        rw [portion]
        omega
      have hle : s.portion bytes.length ≤ s.room bytes.length := by
        rw [portion]
        omega
      exact .inr ⟨_, hpos, hle, (Prod.mk.inj h).1.symm, (Prod.mk.inj h).2.symm⟩

/-- Writing everything comes to what there is room for, however it is cut into writes. -/
theorem writeAll_result (s : Sink) (bytes : List UInt8) :
    (s.writeAll bytes).1 =
        (if s.room bytes.length = bytes.length then .ok () else .error s.whenFull.error) ∧
      (s.writeAll bytes).2.accepted = s.accepted ++ bytes.take (s.room bytes.length) := by
  fun_induction writeAll s bytes with
  | case1 s =>
    have h := Nat.le_zero.mp (s.room_le 0)
    simp [h]
  | case2 s bytes hne s' h ih =>
    obtain ⟨-, rfl⟩ := offer_interrupted h
    exact ih
  | case3 s bytes hne e s' h =>
    have hpos := List.length_pos_iff.mpr hne
    obtain ⟨hroom, ha, rfl⟩ | ⟨n, -, -, ha, -⟩ := offer_eq h (by simp)
    · have he : s.whenFull.error = e := by
        cases hw : s.whenFull <;> simp_all [WhenFull.answer, WhenFull.error]
      rw [hroom, if_neg (by omega), he]
      simp [take]
    · simp at ha
  | case4 s bytes hne s' h =>
    have hpos := List.length_pos_iff.mpr hne
    obtain ⟨hroom, ha, rfl⟩ | ⟨n, hn, -, ha, -⟩ := offer_eq h (by simp)
    · have he : s.whenFull.error = .nothingAccepted := by
        cases hw : s.whenFull <;> simp_all [WhenFull.answer, WhenFull.error]
      rw [hroom, if_neg (by omega), he]
      simp [take]
    · exact absurd (Acceptance.accepted.inj ha) (Nat.ne_of_lt hn)
  | case5 s bytes hne n s' h ih =>
    obtain ⟨-, ha, -⟩ | ⟨k, -, hroom, ha, rfl⟩ := offer_eq h (by simp)
    · cases hw : s.whenFull <;> simp [WhenFull.answer, hw] at ha
    · obtain rfl := Acceptance.accepted.inj ha
      have hle := s.room_le bytes.length
      rw [s.room_take bytes (n + 1) hroom] at ih
      obtain ⟨hres, hacc⟩ := ih
      refine ⟨?_, ?_⟩
      · have hall : s.room bytes.length - (n + 1) = (bytes.drop (n + 1)).length ↔
            s.room bytes.length = bytes.length := by
          rw [List.length_drop]
          omega
        rw [hres]
        simp only [hall]
        rfl
      · have hparts : bytes.take (s.room bytes.length) =
            bytes.take (n + 1) ++ (bytes.drop (n + 1)).take (s.room bytes.length - (n + 1)) := by
          rw [← List.take_add, Nat.add_sub_cancel' hroom]
        rw [hacc, hparts]
        apply Array.toList_inj.mp
        simp [take]

def bytesOf (text : String) : List UInt8 := text.toUTF8.data.toList

theorem bytesOf_append (s t : String) : bytesOf (s ++ t) = bytesOf s ++ bytesOf t := by
  simp [bytesOf]

def writeText (s : Sink) (text : String) : Except WriteError Unit × Sink :=
  s.writeAll (bytesOf text)

/-- Write texts one after the other, up to the first that the sink fails on. -/
def writeTexts (s : Sink) : List String → Except WriteError Unit × Sink
  | [] => (.ok (), s)
  | text :: rest =>
    match s.writeText text with
    | (.ok (), s) => s.writeTexts rest
    | (.error e, s) => (.error e, s)

def flush (s : Sink) : Except WriteError Unit × Sink :=
  let result := match s.flushFailure with
    | none => .ok ()
    | some message => .error (.refused message)
  (result, { s with flushes := s.flushes + 1 })

end Sink

end TapeLang

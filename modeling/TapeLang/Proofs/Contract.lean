import Mathlib.Tactic.ByContra
import TapeLang.Machine

/-!
The contract of the simple instructions, as a table in plain arithmetic. An instruction either has
an effect on the machine or is refused by one of its streams; a machine performs exactly what the
table says. Cells and head are compared as integers, so wrapping is part of the table and not
borrowed from the words that hold them.
-/
namespace TapeLang

namespace Tape

/-- `t'` is `t` with `v`, modulo 256, in the current cell. -/
def Stores (t : Tape) (v : Int) (t' : Tape) : Prop :=
  t'.head = t.head ∧
    ∀ i, ((t'.get i).toNat : Int) = if i = t.head then v % 256 else ((t.get i).toNat : Int)

/-- `t'` is `t` with the head on cell `i`, modulo the number of cells. -/
def Moves (t : Tape) (i : Int) (t' : Tape) : Prop :=
  (t'.head.toNat : Int) = i % cellCount ∧ ∀ j, t'.get j = t.get j

theorem stores_iff (t t' : Tape) (v : Int) (w : UInt8) (hw : (w.toNat : Int) = v % 256) :
    t.Stores v t' ↔ t' = t.setCurrent w := by
  constructor
  · rintro ⟨hhead, hcells⟩
    apply Tape.ext
    · intro i
      have hi := hcells i
      rw [get_setCurrent]
      apply UInt8.toNat_inj.mp
      split at hi
      · next h => rw [if_pos h]; omega
      · next h => rw [if_neg h]; omega
    · exact hhead
  · rintro rfl
    refine ⟨rfl, fun i => ?_⟩
    rw [get_setCurrent]
    split
    · exact hw
    · rfl

theorem moves_iff (t t' : Tape) (i : Int) (w : UInt16) (hw : (w.toNat : Int) = i % cellCount) :
    t.Moves i t' ↔ t' = t.setHead w := by
  constructor
  · rintro ⟨hhead, hcells⟩
    apply Tape.ext
    · intro j
      exact hcells j
    · apply UInt16.toNat_inj.mp
      simp only [head_setHead]
      omega
  · rintro rfl
    exact ⟨hw, fun _ => rfl⟩

theorem stores_add_one (t t' : Tape) :
    t.Stores (t.current.toNat + 1) t' ↔ t' = t.increment := by
  apply stores_iff
  rw [UInt8.toNat_add]
  simp

theorem stores_sub_one (t t' : Tape) :
    t.Stores (t.current.toNat - 1) t' ↔ t' = t.decrement := by
  apply stores_iff
  have h := t.current.toNat_lt
  rw [UInt8.toNat_sub]
  simp only [UInt8.reduceToNat]
  omega

theorem moves_add_one (t t' : Tape) :
    t.Moves (t.head.toNat + 1) t' ↔ t' = t.moveRight := by
  apply moves_iff
  rw [UInt16.toNat_add]
  simp [cellCount, UInt16.size]

theorem moves_sub_one (t t' : Tape) :
    t.Moves (t.head.toNat - 1) t' ↔ t' = t.moveLeft := by
  apply moves_iff
  have h := t.head.toNat_lt
  rw [UInt16.toNat_sub]
  simp only [UInt16.reduceToNat, cellCount, UInt16.size]
  omega

theorem stores_byte (t t' : Tape) (b : UInt8) : t.Stores b.toNat t' ↔ t' = t.setCurrent b := by
  apply stores_iff
  have h := b.toNat_lt
  omega

end Tape

namespace Feed

/-- A read of `f` comes to `r` after any number of interruptions and leaves `f'`. -/
def Yields (f : Feed) (r : Reading) (f' : Feed) : Prop :=
  ∃ interruptions : Nat,
    match r with
    | .byte b => f = List.replicate interruptions .interrupted ++ .byte b :: f'
    | .failure message =>
      f = List.replicate interruptions .interrupted ++ .failure message :: f'
    | .endOfInput =>
      f = List.replicate interruptions .interrupted ++ .endOfInput :: f' ∨
        f = List.replicate interruptions .interrupted ∧ f' = []

theorem read_replicate (n : Nat) (f : Feed) :
    read (List.replicate n .interrupted ++ f) = read f := by
  induction n with
  | zero => rfl
  | succ n ih => rw [List.replicate_succ, List.cons_append, read_interrupted, ih]

theorem yields_interrupted {f f' : Feed} {r : Reading} (h : f.Yields r f') :
    Yields (.interrupted :: f) r f' := by
  obtain ⟨n, h⟩ := h
  refine ⟨n + 1, ?_⟩
  cases r with
  | byte b => simp only at h ⊢; rw [h, List.replicate_succ, List.cons_append]
  | failure message => simp only at h ⊢; rw [h, List.replicate_succ, List.cons_append]
  | endOfInput =>
    rcases h with h | ⟨h, hf⟩
    · exact Or.inl (by rw [h, List.replicate_succ, List.cons_append])
    · exact Or.inr ⟨by rw [h, List.replicate_succ], hf⟩

theorem yields_read (f : Feed) : f.Yields f.read.1 f.read.2 := by
  induction f with
  | nil => exact ⟨0, Or.inr ⟨rfl, rfl⟩⟩
  | cons d rest ih =>
    cases d with
    | byte b => exact ⟨0, rfl⟩
    | endOfInput => exact ⟨0, Or.inl rfl⟩
    | interrupted => exact yields_interrupted ih
    | failure message => exact ⟨0, rfl⟩

theorem yields_iff {f f' : Feed} {r : Reading} : f.Yields r f' ↔ f.read = (r, f') := by
  constructor
  · rintro ⟨n, h⟩
    cases r with
    | byte b => simp only at h; rw [h, read_replicate]; rfl
    | failure message => simp only at h; rw [h, read_replicate]; rfl
    | endOfInput =>
      rcases h with h | ⟨h, rfl⟩
      · rw [h, read_replicate]; rfl
      · rw [h, ← List.append_nil (List.replicate n _), read_replicate]; rfl
  · intro h
    have hy := yields_read f
    rw [h] at hy
    exact hy

end Feed

namespace Sink

/-- Another byte would still be accepted. -/
def HasRoom (s : Sink) : Prop := ∀ limit, s.limit = some limit → s.accepted.size < limit

theorem room_one_of_hasRoom {s : Sink} (h : s.HasRoom) : s.room 1 = 1 := by
  unfold room
  split
  · rfl
  · next limit hl =>
    have := h limit hl
    omega

theorem room_one_of_not_hasRoom {s : Sink} (h : ¬ s.HasRoom) : s.room 1 = 0 := by
  unfold room
  split
  · next hl => exact absurd (fun limit hs => by simp [hl] at hs) h
  · next limit hl =>
    by_contra hne
    apply h
    intro limit' hl'
    obtain rfl : limit = limit' := Option.some.inj (hl.symm.trans hl')
    omega

theorem offer_of_waiting (s : Sink) (bytes : List UInt8) (h : 0 < s.waiting) :
    s.offer bytes = (.interrupted, s.interrupt) := by
  simp [offer, h]

theorem writeAll_of_offer {s : Sink} {bytes : List UInt8} (h : bytes ≠ []) :
    s.writeAll bytes =
      match s.offer bytes with
      | (.interrupted, s) => s.writeAll bytes
      | (.failed e, s) => (.error e, s)
      | (.accepted 0, s) => (.error .nothingAccepted, s)
      | (.accepted (n + 1), s) => s.writeAll (bytes.drop (n + 1)) := by
  rw [writeAll, if_neg h]
  split <;> simp_all

/-- Writing one byte comes to one write that goes through, and the interruptions before it leave
no trace. -/
theorem writeAll_singleton (s : Sink) (b : UInt8) :
    s.writeAll [b] =
      if s.room 1 = 0 then (.error s.whenFull.error, s.take []) else (.ok (), s.take [b]) := by
  induction hn : s.waiting generalizing s with
  | zero =>
    have hle := s.room_le 1
    have hwait : ¬ 0 < s.waiting := by omega
    rw [writeAll_of_offer (List.cons_ne_nil b [])]
    by_cases hroom : s.room 1 = 0
    · have hoffer : s.offer [b] = (s.whenFull.answer, s.take []) := by
        simp [offer, hwait, hroom]
      rw [hoffer, if_pos hroom]
      cases s.whenFull <;> rfl
    · have hone : s.room 1 = 1 := by omega
      have hportion : s.portion 1 = 1 := by
        rw [portion, hone]
        omega
      have hoffer : s.offer [b] = (.accepted 1, s.take [b]) := by
        simp [offer, hwait, hone, hportion]
      rw [hoffer, if_neg hroom]
      simp [writeAll]
  | succ n ih =>
    have hrest := ih s.interrupt (by simp [interrupt, hn])
    rw [writeAll_of_offer (List.cons_ne_nil b []), s.offer_of_waiting [b] (by omega)]
    exact hrest

end Sink

namespace EofPolicy

/-- What is in a cell after an input that met the end, given its value before. -/
inductive Leaves : EofPolicy → UInt8 → Int → Prop
  | zero (cell : UInt8) : Leaves .zero cell 0
  | unchanged (cell : UInt8) : Leaves .unchanged cell cell.toNat
  | max (cell : UInt8) : Leaves .max cell 255

theorem leaves_iff {eof : EofPolicy} {cell : UInt8} {value : Int} :
    eof.Leaves cell value ↔ value = (eof.onEof cell).toNat := by
  constructor
  · intro h
    cases h with
    | zero => rfl
    | unchanged => rfl
    | max => rfl
  · rintro rfl
    cases eof with
    | zero => exact .zero cell
    | unchanged => exact .unchanged cell
    | max => exact .max cell

end EofPolicy

/-- The contract of an instruction that succeeds. -/
inductive Effect : Op → Machine → Machine → Prop
  | increment {m : Machine} {t : Tape} (h : m.tape.Stores (m.tape.current.toNat + 1) t) :
      Effect .increment m { m with tape := t }
  | decrement {m : Machine} {t : Tape} (h : m.tape.Stores (m.tape.current.toNat - 1) t) :
      Effect .decrement m { m with tape := t }
  | moveLeft {m : Machine} {t : Tape} (h : m.tape.Moves (m.tape.head.toNat - 1) t) :
      Effect .moveLeft m { m with tape := t }
  | moveRight {m : Machine} {t : Tape} (h : m.tape.Moves (m.tape.head.toNat + 1) t) :
      Effect .moveRight m { m with tape := t }
  | output {m : Machine} (h : m.sink.HasRoom) :
      Effect .output m { m with sink := m.sink.take [m.tape.current] }
  | input {m : Machine} {b : UInt8} {f : Feed} {t : Tape} (h : m.feed.Yields (.byte b) f)
      (ht : m.tape.Stores b.toNat t) : Effect .input m { m with tape := t, feed := f }
  | inputAtEnd {m : Machine} {f : Feed} {value : Int} {t : Tape}
      (h : m.feed.Yields .endOfInput f) (hvalue : m.eof.Leaves m.tape.current value)
      (ht : m.tape.Stores value t) : Effect .input m { m with tape := t, feed := f }

/-- The contract of an instruction that fails: the stream it uses has been tried once, and the
tape is left alone. -/
inductive Refusal : Op → Machine → RuntimeError → Machine → Prop
  | output {m : Machine} (h : ¬ m.sink.HasRoom) :
      Refusal .output m (.write m.sink.whenFull.error) { m with sink := m.sink.take [] }
  | input {m : Machine} {message : String} {f : Feed} (h : m.feed.Yields (.failure message) f) :
      Refusal .input m (.read message) { m with feed := f }

namespace Machine

theorem perform_output (m : Machine) :
    m.perform .output =
      if m.sink.room 1 = 0 then
        .error (.write m.sink.whenFull.error) { m with sink := m.sink.take [] }
      else .ok () { m with sink := m.sink.take [m.tape.current] } := by
  simp only [perform, Sink.writeAll_singleton]
  by_cases h : m.sink.room 1 = 0
  · simp only [if_pos h]
  · simp only [if_neg h]

/-- A machine performs what the table allows. -/
theorem perform_eq_ok {o : Op} {m m' : Machine} : m.perform o = .ok () m' ↔ Effect o m m' := by
  constructor
  · intro h
    cases o with
    | increment => cases h; exact .increment ((Tape.stores_add_one _ _).mpr rfl)
    | decrement => cases h; exact .decrement ((Tape.stores_sub_one _ _).mpr rfl)
    | moveLeft => cases h; exact .moveLeft ((Tape.moves_sub_one _ _).mpr rfl)
    | moveRight => cases h; exact .moveRight ((Tape.moves_add_one _ _).mpr rfl)
    | output =>
      rw [perform_output] at h
      by_cases hroom : m.sink.HasRoom
      · rw [if_neg (by rw [Sink.room_one_of_hasRoom hroom]; omega)] at h
        cases h
        exact .output hroom
      · rw [if_pos (Sink.room_one_of_not_hasRoom hroom)] at h
        cases h
    | input =>
      have hy := m.feed.yields_read
      simp only [perform] at h
      split at h
      · next b f hread =>
        rw [hread] at hy
        cases h
        exact .input hy ((Tape.stores_byte _ _ _).mpr rfl)
      · next f hread =>
        rw [hread] at hy
        cases h
        exact .inputAtEnd hy (EofPolicy.leaves_iff.mpr rfl) ((Tape.stores_byte _ _ _).mpr rfl)
      · cases h
  · intro h
    cases h with
    | increment h => rw [(Tape.stores_add_one _ _).mp h]; rfl
    | decrement h => rw [(Tape.stores_sub_one _ _).mp h]; rfl
    | moveLeft h => rw [(Tape.moves_sub_one _ _).mp h]; rfl
    | moveRight h => rw [(Tape.moves_add_one _ _).mp h]; rfl
    | output h => rw [perform_output, if_neg (by rw [Sink.room_one_of_hasRoom h]; omega)]
    | input h ht =>
      rw [(Tape.stores_byte _ _ _).mp ht]
      simp only [perform, Feed.yields_iff.mp h]
    | inputAtEnd h hvalue ht =>
      rw [EofPolicy.leaves_iff.mp hvalue] at ht
      rw [(Tape.stores_byte _ _ _).mp ht]
      simp only [perform, Feed.yields_iff.mp h]

/-- A machine fails where the table says so, and as it says. -/
theorem perform_eq_error {o : Op} {m m' : Machine} {e : RuntimeError} :
    m.perform o = .error e m' ↔ Refusal o m e m' := by
  constructor
  · intro h
    cases o with
    | increment => cases h
    | decrement => cases h
    | moveLeft => cases h
    | moveRight => cases h
    | output =>
      rw [perform_output] at h
      by_cases hroom : m.sink.HasRoom
      · rw [if_neg (by rw [Sink.room_one_of_hasRoom hroom]; omega)] at h
        cases h
      · rw [if_pos (Sink.room_one_of_not_hasRoom hroom)] at h
        cases h
        exact .output hroom
    | input =>
      have hy := m.feed.yields_read
      simp only [perform] at h
      split at h
      · cases h
      · cases h
      · next message f hread =>
        rw [hread] at hy
        cases h
        exact .input hy
  · intro h
    cases h with
    | output h => rw [perform_output, if_pos (Sink.room_one_of_not_hasRoom h)]
    | input h => simp only [perform, Feed.yields_iff.mp h]

end Machine

end TapeLang

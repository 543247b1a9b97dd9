import TapeLang.Dump
import TapeLang.Proofs.Emission

/-!
Texts that are cut short. The assembly and the dump of a program are offered to a sink piece by
piece, but what arrives depends on the whole text and the room there is: it is as much of the text
as fits, however the pieces are cut, however few bytes a write takes and whatever interruptions come
between. An error of the sink is always reported, and nothing is written after it.
-/
namespace TapeLang

namespace Sink

/-- A new sink that takes at most `limit` bytes gets so many of a text. -/
theorem writeTexts_of_limited (texts : List String) {s : Sink} {limit : Nat}
    (hlimit : s.limit = some limit) (hempty : s.accepted = #[]) :
    (s.writeTexts texts).1 =
        (if limit < (bytesOf (String.join texts)).length then .error s.whenFull.error
          else .ok ()) ∧
      (s.writeTexts texts).2.accepted.toList = (bytesOf (String.join texts)).take limit := by
  have hroom (n : Nat) : s.room n = min n limit := by
    rw [room, hlimit, hempty]
    rfl
  obtain ⟨hresult, haccepted⟩ := s.writeTexts_result texts
  generalize bytesOf (String.join texts) = text at hresult haccepted ⊢
  rw [hroom] at hresult haccepted
  constructor
  · rw [hresult]
    by_cases hlt : limit < text.length
    · rw [if_neg (by omega), if_pos hlt]
    · rw [if_pos (by omega), if_neg hlt]
  · rw [haccepted, hempty, Nat.min_comm, ← List.take_eq_take_min]
    rfl

end Sink

namespace Generator

/-- What an attempt to write a program reports, and the bytes that have arrived by then. -/
def outcome : EStateM.Result GeneratorError Generator Nat → Except GeneratorError Nat × List UInt8
  | .ok count g => (.ok count, g.sink.accepted.toList)
  | .error e g => (.error e, g.sink.accepted.toList)

theorem outcome_generate_ok {p : Program} {g g₁ : Generator} (h : writeProgram p g = .ok () g₁) :
    outcome (generate p g) =
      (match g₁.sink.flushFailure with
        | none => .ok g₁.lines
        | some message => .error (.write (.refused message)), g₁.sink.accepted.toList) := by
  cases hflush : g₁.sink.flushFailure with
  | none =>
    rw [generate_of_writeProgram h hflush]
    rfl
  | some message =>
    rw [generate_eq]
    simp only [bind, EStateM.bind, h, flushSink, Sink.flush, hflush]
    rfl

theorem outcome_generate_error {p : Program} {g g₁ : Generator} {e : GeneratorError}
    (h : writeProgram p g = .error e g₁) :
    outcome (generate p g) = (.error e, g₁.sink.accepted.toList) := by
  rw [generate_eq]
  simp only [bind, EStateM.bind, h]
  rfl

end Generator

namespace Program

/-- A compilation reports what becomes of its texts, and then of the flush. -/
theorem outcome_compile (o : Options) (p : Program) (s : Sink) :
    Generator.outcome (p.compile o s) =
      (match (s.writeTexts (p.texts o {})).1, s.flushFailure with
        | .error e, _ => .error (.write e)
        | .ok (), none => .ok (p.lineCount o {})
        | .ok (), some message => .error (.write (.refused message)),
        (s.writeTexts (p.texts o {})).2.accepted.toList) := by
  have hemits := Generator.emits_writeProgram { options := o } p rfl s
  have hsame := s.resembles_writeTexts (p.texts o {})
  generalize hw : s.writeTexts (p.texts o {}) = written at hsame
  obtain ⟨result, s'⟩ := written
  cases result with
  | ok u =>
    have hreport := Generator.outcome_generate_ok ((hemits s').1 hw)
    have hflush : s'.flushFailure = s.flushFailure := hsame.flushFailure
    have hlines : 0 + p.lineCount o {} = p.lineCount o {} := Nat.zero_add _
    simp only [hflush] at hreport
    refine hreport.trans ?_
    cases s.flushFailure with
    | none => exact congrArg (fun n => (Except.ok n, s'.accepted.toList)) hlines
    | some message => rfl
  | error e =>
    obtain ⟨g, hprogram⟩ := (hemits s').2 e hw
    exact Generator.outcome_generate_error hprogram

/-- There are an assembly and a dump, which every sink that takes everything gets in full. From a
sink that takes `limit` bytes the first `limit` bytes of each text are accepted. If there are more,
the error of this sink is reported; otherwise writing succeeds, and compiling does if the flush at
its end succeeds. None of this depends on the interruptions or on how few bytes a write takes. -/
theorem limited_sinks_get_first_bytes (o : Options) (p : Program) :
    ∃ (count : Nat) (text dump : List UInt8),
      (∀ interruptions shortfalls,
        Generator.outcome (p.compile o { interruptions, shortfalls }) = (.ok count, text)) ∧
      (∀ interruptions shortfalls, (p.writeDump { interruptions, shortfalls }).1 = .ok () ∧
        (p.writeDump { interruptions, shortfalls }).2.accepted.toList = dump) ∧
      ∀ (limit : Nat) (w : WhenFull) (flushFailure : Option String)
        (interruptions shortfalls : Nat → Nat),
        let s : Sink :=
          { limit := some limit, whenFull := w, flushFailure, interruptions, shortfalls }
        Generator.outcome (p.compile o s) =
          (if limit < text.length then .error (.write w.error)
            else match flushFailure with
              | none => .ok count
              | some message => .error (.write (.refused message)), text.take limit) ∧
        (p.writeDump s).1 = (if limit < dump.length then .error w.error else .ok ()) ∧
        (p.writeDump s).2.accepted.toList = dump.take limit := by
  refine ⟨p.lineCount o {}, Sink.bytesOf (p.assembly o), Sink.bytesOf p.dump, ?_, ?_, ?_⟩
  · intro interruptions shortfalls
    obtain ⟨s', hwrite, -, haccepted⟩ :=
      Sink.writeTexts_of_unlimited (p.texts o {}) { interruptions, shortfalls } rfl
    rw [outcome_compile, hwrite, haccepted]
    rfl
  · intro interruptions shortfalls
    obtain ⟨s', hwrite, -, haccepted⟩ :=
      Sink.writeTexts_of_unlimited p.dumpLines { interruptions, shortfalls } rfl
    rw [writeDump, hwrite, haccepted]
    exact ⟨rfl, rfl⟩
  · intro limit w flushFailure interruptions shortfalls s
    have htext := Sink.writeTexts_of_limited (p.texts o {}) (s := s) rfl rfl
    have hdump := Sink.writeTexts_of_limited p.dumpLines (s := s) rfl rfl
    refine ⟨?_, hdump⟩
    rw [outcome_compile, htext.1, htext.2, assembly]
    by_cases hlt : limit < (Sink.bytesOf (String.join (p.texts o {}))).length
    · simp only [if_pos hlt]
      rfl
    · simp only [if_neg hlt]
      cases flushFailure <;> rfl

end Program

end TapeLang

import TapeLang.Proofs.Emission

/-!
The labels in the code. Loops and inputs are numbered in the order in which they come, and the end
of a loop takes its number from the loops that are open. So whatever calls a generator is given,
it defines no label twice.
-/
namespace TapeLang

open Assembly

namespace Assembly.Line

/-- The label that a line defines. -/
def label? : Line → Option Label
  | label l => some l
  | _ => none

end Assembly.Line

namespace Draft

/-- The open loops are different loops and have been numbered. -/
structure Numbered (d : Draft) : Prop where
  nodup : d.loops.Nodup
  lt : ∀ id ∈ d.loops, id < d.nextLoop

/-- The labels that code to come may define: those of loops and inputs that have no number yet, and
the ends of open loops. -/
def Ahead (d : Draft) : Label → Prop
  | .loopStart id => d.nextLoop ≤ id
  | .loopEnd id => id ∈ d.loops ∨ d.nextLoop ≤ id
  | .input id => d.nextInput ≤ id

def definedLabels (ls : List Line) : List Label := ls.filterMap Line.label?

theorem definedLabels_append (ls ls' : List Line) :
    definedLabels (ls ++ ls') = definedLabels ls ++ definedLabels ls' :=
  List.filterMap_append

@[simp] theorem definedLabels_instrs (instrs : List Instr) :
    definedLabels (instrs.map .instr) = [] := by
  induction instrs with
  | nil => rfl
  | cons i rest ih => exact ih

theorem definedLabels_wrote (o : Options) (d : Draft) (c : Call) :
    definedLabels (d.wrote o c) = definedLabels (d.fragment o c) := by
  obtain ⟨updates, -, hwrote⟩ := d.wrote_eq o c
  rw [hwrote, definedLabels_append, definedLabels_instrs, List.nil_append]

/-- What one call does: it defines labels that were ahead, no two the same, and from then on they
are behind. -/
structure Advances (d d' : Draft) (ls : List Label) : Prop where
  numbered : d.Numbered → d'.Numbered
  nodup : ls.Nodup
  ahead : d.Numbered → ∀ l ∈ ls, d.Ahead l
  behind : d.Numbered → ∀ l ∈ ls, ¬ d'.Ahead l
  shrinks : ∀ l, d'.Ahead l → d.Ahead l

/-- A call that defines no label and changes no number. -/
theorem Advances.of_eq {d d' : Draft} (hloops : d'.loops = d.loops)
    (hloop : d'.nextLoop = d.nextLoop) (hinput : d'.nextInput = d.nextInput) :
    Advances d d' [] where
  numbered h := ⟨hloops ▸ h.nodup, by rw [hloops, hloop]; exact h.lt⟩
  nodup := List.nodup_nil
  ahead _ l h := absurd h List.not_mem_nil
  behind _ l h := absurd h List.not_mem_nil
  shrinks l h := by
    cases l with
    | loopStart id => simpa only [Ahead, hloop] using h
    | loopEnd id => simpa only [Ahead, hloop, hloops] using h
    | input id => simpa only [Ahead, hinput] using h

theorem advances_input (o : Options) (d : Draft) (pos : Position) :
    Advances d (d.next o (.op .input pos)) (definedLabels (d.wrote o (.op .input pos))) := by
  have hlabels : definedLabels (d.wrote o (.op .input pos)) = [] ∨
      definedLabels (d.wrote o (.op .input pos)) = [.input d.nextInput] := by
    rw [definedLabels_wrote, fragment]
    cases o.eof with
    | max => exact .inl rfl
    | zero => exact .inr rfl
    | unchanged => exact .inr rfl
  have hmem : ∀ l ∈ definedLabels (d.wrote o (.op .input pos)), l = .input d.nextInput := by
    intro l h
    rcases hlabels with hnone | hone
    · rw [hnone] at h
      exact absurd h List.not_mem_nil
    · rw [hone] at h
      exact List.mem_singleton.mp h
  refine ⟨fun h => ⟨h.nodup, h.lt⟩, ?_, ?_, ?_, ?_⟩
  · rcases hlabels with hnone | hone
    · rw [hnone]
      exact List.nodup_nil
    · rw [hone]
      simp
  · intro _ l h
    rw [hmem l h]
    exact Nat.le_refl d.nextInput
  · intro _ l h
    rw [hmem l h]
    exact Nat.not_succ_le_self d.nextInput
  · intro l h
    cases l with
    | loopStart id => exact h
    | loopEnd id => exact h
    | input id => exact Nat.le_of_succ_le h

theorem advances_enterLoop (o : Options) (d : Draft) (pos : Position) :
    Advances d (d.next o (.enterLoop pos)) (definedLabels (d.wrote o (.enterLoop pos))) := by
  have hlabels : definedLabels (d.wrote o (.enterLoop pos)) = [.loopStart d.nextLoop] :=
    definedLabels_wrote o d (.enterLoop pos)
  rw [hlabels]
  refine ⟨fun h => ⟨?_, ?_⟩, by simp, ?_, ?_, ?_⟩
  · exact List.nodup_cons.mpr ⟨fun hmem => Nat.lt_irrefl _ (h.lt _ hmem), h.nodup⟩
  · intro id hid
    rcases List.mem_cons.mp hid with rfl | hid
    · exact Nat.lt_succ_self d.nextLoop
    · exact Nat.lt_succ_of_lt (h.lt id hid)
  · intro _ l h
    rw [List.mem_singleton.mp h]
    exact Nat.le_refl d.nextLoop
  · intro _ l h
    rw [List.mem_singleton.mp h]
    exact Nat.not_succ_le_self d.nextLoop
  · intro l h
    cases l with
    | loopStart id => exact Nat.le_of_succ_le h
    | loopEnd id =>
      rcases h with hopen | hnew
      · rcases List.mem_cons.mp hopen with rfl | hopen
        · exact .inr (Nat.le_refl _)
        · exact .inl hopen
      · exact .inr (Nat.le_of_succ_le hnew)
    | input id => exact h

theorem advances_exitLoop (o : Options) (d : Draft) (pos : Position) :
    Advances d (d.next o (.exitLoop pos)) (definedLabels (d.wrote o (.exitLoop pos))) := by
  rw [definedLabels_wrote, fragment]
  cases hloops : d.loops with
  | nil => exact .of_eq (by rw [hloops]; exact congrArg List.tail hloops) rfl rfl
  | cons id outer =>
    have hnext : (d.next o (.exitLoop pos)).loops = outer := congrArg List.tail hloops
    have hlabels : definedLabels (exitLines (id :: outer)) = [.loopEnd id] := rfl
    rw [hlabels]
    refine ⟨fun h => ⟨?_, ?_⟩, by simp, ?_, ?_, ?_⟩
    · rw [hnext]
      have hnodup := h.nodup
      rw [hloops] at hnodup
      exact (List.nodup_cons.mp hnodup).2
    · rw [hnext]
      intro i hi
      exact h.lt i (by rw [hloops]; exact List.mem_cons_of_mem _ hi)
    · intro _ l h
      rw [List.mem_singleton.mp h]
      exact .inl (by rw [hloops]; exact List.mem_cons_self)
    · intro hd l h hahead
      rw [List.mem_singleton.mp h] at hahead
      rcases hahead with hopen | hnew
      · rw [hnext] at hopen
        have hnodup := hd.nodup
        rw [hloops] at hnodup
        exact (List.nodup_cons.mp hnodup).1 hopen
      · have hlt := hd.lt id (by rw [hloops]; exact List.mem_cons_self)
        exact absurd (Nat.lt_of_lt_of_le hlt hnew) (Nat.lt_irrefl _)
    · intro l h
      cases l with
      | loopStart i => exact h
      | loopEnd i =>
        rcases h with hopen | hnew
        · rw [hnext] at hopen
          exact .inl (by rw [hloops]; exact List.mem_cons_of_mem _ hopen)
        · exact .inr hnew
      | input i => exact h

theorem advances_call (o : Options) (d : Draft) (c : Call) :
    Advances d (d.next o c) (definedLabels (d.wrote o c)) := by
  cases c with
  | op op pos =>
    cases op with
    | increment | decrement | moveLeft | moveRight | output =>
      rw [definedLabels_wrote]
      exact .of_eq rfl rfl rfl
    | input => exact advances_input o d pos
  | enterLoop pos => exact advances_enterLoop o d pos
  | exitLoop pos => exact advances_exitLoop o d pos
  | finish =>
    rw [definedLabels_wrote]
    exact .of_eq rfl rfl rfl

theorem nodup_definedLabels (o : Options) (cs : List Call) (d : Draft) (h : d.Numbered) :
    (definedLabels (d.code o cs)).Nodup ∧ ∀ l ∈ definedLabels (d.code o cs), d.Ahead l := by
  induction cs generalizing d with
  | nil => exact ⟨List.nodup_nil, fun l h => absurd h List.not_mem_nil⟩
  | cons c rest ih =>
    have hcall := advances_call o d c
    obtain ⟨hnodup, hahead⟩ := ih (d.next o c) (hcall.numbered h)
    rw [code, definedLabels_append]
    constructor
    · refine List.nodup_append.mpr ⟨hcall.nodup, hnodup, ?_⟩
      intro l hl l' hl' heq
      rw [← heq] at hl'
      exact hcall.behind h l hl (hahead l hl')
    · intro l hl
      rcases List.mem_append.mp hl with hl | hl
      · exact hcall.ahead h l hl
      · exact hcall.shrinks l (hahead l hl)

theorem numbered_empty : Numbered {} := ⟨List.nodup_nil, fun _ h => absurd h List.not_mem_nil⟩

end Draft

end TapeLang

import TapeLang.Proofs.AssemblyText
import TapeLang.Proofs.Session

/-!
How loops are nested in the code. The labels of loops stand like brackets: whatever calls a
generator is given, code is at any time properly nested but for the loops that are still open. A
jump back goes to a loop that has been started, and every other jump goes to a label that follows
it, at the latest when all loops are closed.
-/
namespace TapeLang

open Assembly

namespace X86.File

/-- The labels that a file jumps to. -/
def jumpTargets (file : File) : List String :=
  file.filterMap fun
    | .instr (.je name) | .instr (.jne name) | .instr (.jmp name) => some name
    | _ => none

theorem labels_append (file file' : File) : labels (file ++ file') = labels file ++ labels file' :=
  List.filterMap_append

theorem jumpTargets_append (file file' : File) :
    jumpTargets (file ++ file') = jumpTargets file ++ jumpTargets file' :=
  List.filterMap_append

/-- Labels that were still to come are defined by what follows or remain to come. -/
theorem known_append {P Q : String → Prop} {file file' : File}
    (h : ∀ name ∈ jumpTargets file, name ∈ labels file ∨ P name)
    (hP : ∀ name, P name → name ∈ labels file' ∨ Q name)
    (h' : ∀ name ∈ jumpTargets file', name ∈ labels (file ++ file') ∨ Q name) :
    ∀ name ∈ jumpTargets (file ++ file'), name ∈ labels (file ++ file') ∨ Q name := by
  intro name hname
  rw [jumpTargets_append] at hname
  rcases List.mem_append.mp hname with hname | hname
  · rw [labels_append]
    rcases h name hname with hdefined | hcoming
    · exact .inl (List.mem_append_left _ hdefined)
    · exact (hP name hcoming).imp_left (List.mem_append_right _)
  · exact h' name hname

theorem mem_jumpTargets_of_jmp {file : File} {name : String} (h : .instr (.jmp name) ∈ file) :
    name ∈ jumpTargets file :=
  List.mem_filterMap.mpr ⟨_, h, rfl⟩

end X86.File

namespace Assembly

open X86 X86.File

/-- Code whose loops are properly nested and closed: between the labels of a loop stands code of
the same kind. -/
inductive Closed (t : Target) : File → Prop
  | nil : Closed t []
  | plain {s : Statement} {rest : File}
      (hs : ∀ k, s ≠ .label ((Label.loopStart k).text t) ∧ s ≠ .label ((Label.loopEnd k).text t))
      (hrest : Closed t rest) : Closed t (s :: rest)
  | loop (k : Nat) {body rest : File} (hbody : Closed t body) (hrest : Closed t rest) :
      Closed t (.label ((Label.loopStart k).text t) ::
        (body ++ .label ((Label.loopEnd k).text t) :: rest))

/-- Code that is properly nested but for the given loops, innermost first, which are open at its
end. -/
inductive Nested (t : Target) : List Nat → File → Prop
  | closed {file : File} (h : Closed t file) : Nested t [] file
  | opened (k : Nat) {loops : List Nat} {outer inner : File} (houter : Nested t loops outer)
      (hinner : Closed t inner) :
      Nested t (k :: loops) (outer ++ .label ((Label.loopStart k).text t) :: inner)

theorem Closed.instr {t : Target} {rest : File} (i : X86.Instr) (h : Closed t rest) :
    Closed t (.instr i :: rest) :=
  .plain (fun _ => ⟨nofun, nofun⟩) h

theorem Closed.append {t : Target} {file file' : File} (h : Closed t file) (h' : Closed t file') :
    Closed t (file ++ file') := by
  induction h with
  | nil => exact h'
  | plain hs _ ih => exact .plain hs ih
  | loop k hbody _ _ ih =>
    rw [List.cons_append, List.append_assoc]
    exact .loop k hbody ih

namespace Nested

variable {t : Target} {loops : List Nat} {file file' : File}

theorem append (h : Nested t loops file) (h' : Closed t file') : Nested t loops (file ++ file') := by
  cases h with
  | closed hclosed => exact .closed (hclosed.append h')
  | opened k houter hinner =>
    rw [List.append_assoc]
    exact .opened k houter (hinner.append h')

theorem enter (h : Nested t loops file) (k : Nat) :
    Nested t (k :: loops) (file ++ [.label ((Label.loopStart k).text t)]) :=
  .opened k h .nil

theorem exit {k : Nat} (h : Nested t (k :: loops) file) :
    Nested t loops (file ++ [.label ((Label.loopEnd k).text t)]) := by
  cases h with
  | opened _ houter hinner =>
    rw [List.append_assoc]
    exact houter.append (.loop k hinner .nil)

theorem start_mem (h : Nested t loops file) {k : Nat} (hk : k ∈ loops) :
    .label ((Label.loopStart k).text t) ∈ file := by
  induction h with
  | closed h => exact absurd hk List.not_mem_nil
  | opened k' houter hinner ih =>
    rcases List.mem_cons.mp hk with rfl | hk
    · exact List.mem_append_right _ List.mem_cons_self
    · exact List.mem_append_left _ (ih hk)

end Nested

/-- Every `jmp` goes to the start of a loop, which stands before it. -/
def JumpsBack (t : Target) (file : File) : Prop :=
  ∀ before after name, file = before ++ .instr (.jmp name) :: after →
    ∃ k, name = (Label.loopStart k).text t ∧ .label name ∈ before

theorem JumpsBack.append {t : Target} {file file' : File} (h : JumpsBack t file)
    (h' : ∀ name, .instr (.jmp name) ∈ file' →
      ∃ k, name = (Label.loopStart k).text t ∧ .label name ∈ file) :
    JumpsBack t (file ++ file') := by
  intro before after name heq
  rcases List.append_eq_append_iff.mp heq with ⟨x, rfl, hx⟩ | ⟨x, rfl, hx⟩
  · obtain ⟨k, hk, hmem⟩ := h' name (by rw [hx]; exact List.mem_append_right _ List.mem_cons_self)
    exact ⟨k, hk, List.mem_append_left _ hmem⟩
  · cases x with
    | nil =>
      obtain ⟨k, hk, hmem⟩ := h' name (by rw [List.nil_append] at hx; rw [← hx]; exact List.mem_cons_self)
      rw [List.append_nil] at hmem
      exact ⟨k, hk, hmem⟩
    | cons s x =>
      obtain ⟨rfl, -⟩ := List.cons.inj hx
      exact h before x name rfl

/-- Code by itself: its loops are closed, it does not jump back, and it defines all the labels
that it jumps to. -/
structure Settled (t : Target) (file : File) : Prop where
  closed : Closed t file
  no_jump : ∀ name, .instr (.jmp name) ∉ file
  known : ∀ name ∈ file.jumpTargets, name ∈ file.labels

theorem Settled.append {t : Target} {file file' : File} (h : Settled t file)
    (h' : Settled t file') : Settled t (file ++ file') where
  closed := h.closed.append h'.closed
  no_jump name hmem := by
    rcases List.mem_append.mp hmem with hmem | hmem
    · exact h.no_jump name hmem
    · exact h'.no_jump name hmem
  known name hname := by
    rw [jumpTargets_append] at hname
    rw [labels_append]
    rcases List.mem_append.mp hname with hname | hname
    · exact List.mem_append_left _ (h.known name hname)
    · exact List.mem_append_right _ (h'.known name hname)

/-- The code written so far, with the given loops still open. -/
structure Tidy (t : Target) (loops : List Nat) (file : File) : Prop where
  nested : Nested t loops file
  back : JumpsBack t file
  known : ∀ name ∈ file.jumpTargets,
    name ∈ file.labels ∨ ∃ k ∈ loops, name = (Label.loopEnd k).text t

namespace Tidy

variable {t : Target} {loops : List Nat} {file file' : File}

theorem nil (t : Target) : Tidy t [] [] where
  nested := .closed .nil
  back before after name h := by
    have hmem : Statement.instr (.jmp name) ∈ ([] : File) := by
      rw [h]
      exact List.mem_append_right _ List.mem_cons_self
    exact absurd hmem List.not_mem_nil
  known name h := absurd h List.not_mem_nil

theorem append (h : Tidy t loops file) (h' : Settled t file') : Tidy t loops (file ++ file') where
  nested := h.nested.append h'.closed
  back := h.back.append fun name hmem => absurd hmem (h'.no_jump name)
  known := known_append h.known (fun _ => .inr) fun name hname => by
    rw [labels_append]
    exact .inl (List.mem_append_right _ (h'.known name hname))

/-- A loop is entered: its start, a test, and the jump to its end, which is still to come. -/
theorem enter (h : Tidy t loops file) (k : Nat) :
    Tidy t (k :: loops) (file ++ [.label ((Label.loopStart k).text t),
      .instr (Instr.testCell.meaning t), .instr (.je ((Label.loopEnd k).text t))]) where
  nested := by
    have hnested := (h.nested.enter k).append (.instr (Instr.testCell.meaning t)
      (.instr (.je ((Label.loopEnd k).text t)) .nil))
    rw [List.append_assoc] at hnested
    exact hnested
  back := h.back.append fun name hmem => by simp [Instr.meaning] at hmem
  known := known_append h.known
    (fun _ ⟨k', hk', hend⟩ => .inr ⟨k', List.mem_cons_of_mem _ hk', hend⟩)
    fun _ hname => .inr ⟨k, List.mem_cons_self, List.mem_singleton.mp hname⟩

theorem exit {k : Nat} (h : Tidy t (k :: loops) file) :
    Tidy t loops (file ++ [.instr (.jmp ((Label.loopStart k).text t)),
      .label ((Label.loopEnd k).text t)]) where
  nested := by
    have hnested := (h.nested.append (.instr (.jmp ((Label.loopStart k).text t)) .nil)).exit
    rw [List.append_assoc] at hnested
    exact hnested
  back := h.back.append fun name hmem => by
    obtain rfl : name = (Label.loopStart k).text t := by simpa using hmem
    exact ⟨k, rfl, h.nested.start_mem List.mem_cons_self⟩
  known := by
    refine known_append h.known ?_ fun name hname => ?_
    · rintro _ ⟨k', hk', rfl⟩
      rcases List.mem_cons.mp hk' with rfl | hk'
      · exact .inl List.mem_cons_self
      · exact .inr ⟨k', hk', rfl⟩
    · obtain rfl : name = (Label.loopStart k).text t := List.mem_singleton.mp hname
      have hstart := h.nested.start_mem List.mem_cons_self
      rw [labels_append]
      exact .inl (List.mem_append_left _ (List.mem_filterMap.mpr ⟨_, hstart, rfl⟩))

end Tidy

/-- Whether the instruction names a label. -/
def Instr.isJump : Instr → Bool
  | jumpIfEqual _ | jumpIfNotEqual _ | jump _ => true
  | _ => false

theorem isJump_of_isUpdate {i : Instr} (h : i.isUpdate = true) : i.isJump = false := by
  cases i with
  | inc p | dec p => rfl
  | add p n | sub p n => rfl
  | _ => cases h

theorem jumpTargets_meaning (t : Target) {i : Instr} (h : i.isJump = false) :
    jumpTargets [.instr (i.meaning t)] = [] := by
  cases i with
  | jumpIfEqual l => cases h
  | jumpIfNotEqual l => cases h
  | jump l => cases h
  | _ => rfl

theorem settled_instr (t : Target) {i : Instr} (h : i.isJump = false) :
    Settled t [.instr (i.meaning t)] where
  closed := .instr _ .nil
  no_jump name hmem := by
    have htarget := mem_jumpTargets_of_jmp hmem
    rw [jumpTargets_meaning t h] at htarget
    exact absurd htarget List.not_mem_nil
  known name hname := by
    rw [jumpTargets_meaning t h] at hname
    exact absurd hname List.not_mem_nil

theorem settled_instrs (t : Target) (instrs : List Instr)
    (h : ∀ i ∈ instrs, i.isJump = false) :
    Settled t ((instrs.map Line.instr).flatMap (Line.statements t)) := by
  induction instrs with
  | nil => exact ⟨.nil, fun _ => List.not_mem_nil, fun _ h => absurd h List.not_mem_nil⟩
  | cons i rest ih =>
    exact (settled_instr t (h i List.mem_cons_self)).append
      (ih fun i hi => h i (List.mem_cons_of_mem _ hi))

theorem settled_label (t : Target) {name : String}
    (h : ∀ k, name ≠ (Label.loopStart k).text t ∧ name ≠ (Label.loopEnd k).text t) :
    Settled t [.label name] where
  closed := .plain (fun k => ⟨fun heq => (h k).1 (Statement.label.inj heq),
    fun heq => (h k).2 (Statement.label.inj heq)⟩) .nil
  no_jump name' hmem := by cases List.mem_singleton.mp hmem
  known name' hname := by cases hname

theorem settled_zeroed (t : Target) (symbol : String) (size : Nat) :
    Settled t [.zeroed symbol size] where
  closed := .plain (fun _ => ⟨nofun, nofun⟩) .nil
  no_jump name hmem := by cases List.mem_singleton.mp hmem
  known name hname := by cases hname

end Assembly

namespace Draft

theorem settled_updates (t : Target) {updates : List Instr}
    (h : ∀ i ∈ updates, i.isUpdate = true) :
    Settled t ((updates.map Line.instr).flatMap (Line.statements t)) :=
  settled_instrs t updates fun i hi => isJump_of_isUpdate (h i hi)

/-- The jump over part of an input goes to the label behind it. -/
theorem settled_inputLines (t : Target) (id : Nat) (eof : EofPolicy) :
    Settled t ((inputLines id eof).flatMap (Line.statements t)) := by
  have hother (l : Label) (hne : Label.input id ≠ l) : (Label.input id).text t ≠ l.text t :=
    fun h => hne (Label.text_injective t h)
  have hlabel : Closed t [.label ((Label.input id).text t)] :=
    (settled_label t fun k => ⟨hother (.loopStart k) nofun, hother (.loopEnd k) nofun⟩).closed
  cases eof with
  | max => exact settled_instrs t [.call .getchar, .storeResult] (by decide)
  | zero =>
    refine ⟨.instr _ (.instr _ (.instr _ (.instr _ (hlabel.append (.instr _ .nil))))), ?_, ?_⟩
    · intro name hmem
      simp [inputLines, Line.statements, Instr.meaning] at hmem
    · exact fun name hname => hname
  | unchanged =>
    refine ⟨.instr _ (.instr _ (.instr _ (.instr _ hlabel))), ?_, ?_⟩
    · intro name hmem
      simp [inputLines, Line.statements, Instr.meaning] at hmem
    · exact fun name hname => hname

/-- One call keeps the code tidy. -/
theorem tidy_wrote {t : Target} {file : X86.File} (o : Options) (d : Draft) (c : Call)
    (h : Tidy t d.loops file) :
    Tidy t (d.next o c).loops (file ++ (d.wrote o c).flatMap (Line.statements t)) := by
  obtain ⟨updates, hupdates, hwrote⟩ := d.wrote_eq o c
  have htidy := h.append (settled_updates t hupdates)
  rw [hwrote, List.flatMap_append, ← List.append_assoc]
  cases c with
  | op op pos =>
    cases op with
    | increment | decrement | moveLeft | moveRight =>
      exact htidy.append (settled_instrs t [] fun _ h => absurd h List.not_mem_nil)
    | output =>
      exact htidy.append (settled_instrs t [.loadArgument, .call .putchar] (by decide))
    | input => exact htidy.append (settled_inputLines t d.nextInput o.eof)
  | enterLoop pos => exact htidy.enter d.nextLoop
  | exitLoop pos =>
    rw [next, fragment]
    cases hloops : d.loops with
    | nil =>
      rw [hloops] at htidy
      rw [exitLines, List.flatMap_nil, List.append_nil]
      exact htidy
    | cons k outer =>
      rw [hloops] at htidy
      exact htidy.exit
  | finish => exact htidy.append (settled_instrs t closing (by decide))

theorem tidy_code {t : Target} {file : X86.File} (o : Options) (d : Draft) (cs : List Call)
    (h : Tidy t d.loops file) :
    Tidy t (d.after o cs).loops (file ++ (d.code o cs).flatMap (Line.statements t)) := by
  induction cs generalizing d file with
  | nil =>
    rw [code, List.flatMap_nil, List.append_nil]
    exact h
  | cons c rest ih =>
    rw [code, List.flatMap_append, ← List.append_assoc]
    exact ih (d.next o c) (tidy_wrote o d c h)

end Draft

end TapeLang

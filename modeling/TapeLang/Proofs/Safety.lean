import TapeLang.Proofs.Compilation
import TapeLang.Proofs.LoopLabels

/-!
Safety of compiled programs. Between the opening and the closing no instruction leaves the frame:
`r12` stays the address of the tape, `r13` a number of a cell, the stack pointer where it is, and
the saved registers untouched. Jumps stay between opening and closing. So every state that execution
comes by is safe, whether or not the program halts and whatever the library routines answer.
-/
namespace TapeLang

open Assembly X86

namespace X86

variable {α : Type}

/-- The places that an instruction names. -/
def Instr.locations : Instr → List Location
  | .mov dst (.loc src) | .add dst (.loc src) | .sub dst (.loc src) | .xor dst (.loc src)
  | .cmp dst (.loc src) | .movzx dst src => [dst, src]
  | .mov dst (.imm _) | .add dst (.imm _) | .sub dst (.imm _) | .xor dst (.imm _)
  | .cmp dst (.imm _) | .inc dst | .dec dst => [dst]
  | _ => []

/-- What the calling convention asks of a routine that is called with the stack pointer `sp`: it
leaves the preserved registers, and what its caller has put on the stack, as they were. -/
def Library.Conventional (sp : UInt64) (routine : Cpu α → Cpu α) : Prop :=
  ∀ c, c.regs .rsp = sp → (∀ r, r.isPreserved = true → (routine c).regs r = c.regs r) ∧
    ∀ k, k < File.savedBytes → (routine c).memory (sp + k) = c.memory (sp + k)

theorem Library.conventional_of_spares {lib : Library α} {file : File} {sp : UInt64}
    {routine : Cpu α → Cpu α}
    (h : ∀ c, c.regs .rsp = sp → lib.Spares file c (routine c)) : Conventional sp routine := by
  intro c hsp
  have hspares := h c hsp
  refine ⟨hspares.regs, fun k hk => ?_⟩
  rw [← hsp]
  exact hspares.stack k hk

/-- What is left of the code once the closing has begun to give registers back. -/
def givingBack : List (List Statement) :=
  [epilogue.drop 2, epilogue.drop 3, epilogue.drop 4]

end X86

/-- A safe state of a program that was entered in `start`. The registers for the tape and the head
are in use until the closing gives them back to the caller. -/
structure Safe {α : Type} (t : Target) (lib : Library α) (file : File) (start c : Cpu α) :
    Prop where
  frame : (c.regs .r12 = lib.address t.tape ∧ (c.regs .r13).toNat < cellCount) ∨
    ∃ rest ∈ givingBack, file.At c.pc rest
  access : ∀ i base index, file[c.pc]? = some (.instr i) → .byteAt base index ∈ i.locations →
    ∃ k, k < cellCount ∧ c.regs base + c.regs index = lib.address t.tape + UInt64.ofNat k
  aligned : ∀ symbol, file[c.pc]? = some (.instr (.call symbol)) → (c.regs .rsp).toNat % 16 = 0
  inside : ∃ s, file[c.pc]? = some s ∧ ∀ symbol size, s ≠ .zeroed symbol size
  goes_on : file.Returns c ∨ ∃ c', lib.step file c = some c'
  returns : file.Returns c →
    (∀ r, r.isPreserved = true → c.regs r = start.regs r) ∧ c.regs .rax = 0

namespace Assembly

/-- Whether the instruction leaves the frame as it is. -/
def Instr.staysInFrame : Assembly.Instr → Bool
  | push _ | pop _ | saveStackPointer | loadTape | clearHead | ret => false
  | _ => true

def Line.staysInFrame : Line → Bool
  | label _ | loopComment _ => true
  | instr i => i.staysInFrame
  | _ => false

theorem staysInFrame_of_isUpdate {i : Assembly.Instr} (h : i.isUpdate = true) :
    i.staysInFrame = true := by
  cases i with
  | inc p | dec p => rfl
  | add p n | sub p n => rfl
  | _ => cases h

/-- Memory is only ever addressed through the two registers of the frame. -/
theorem byteAt_of_mem_locations {t : Target} {i : Assembly.Instr} {base index : Reg}
    (h : .byteAt base index ∈ (i.meaning t).locations) : base = .r12 ∧ index = .r13 := by
  have hplace {p : Place} (h : .byteAt base index = p.location) : base = .r12 ∧ index = .r13 := by
    cases p with
    | cell =>
      cases h
      exact ⟨rfl, rfl⟩
    | head => cases h
  cases i with
  | inc p | dec p => exact hplace (List.mem_singleton.mp h)
  | add p n | sub p n => exact hplace (List.mem_singleton.mp h)
  | testCell => exact hplace (p := .cell) (List.mem_singleton.mp h)
  | loadArgument | storeResult =>
    exact hplace (p := .cell) (by simpa [Instr.meaning, X86.Instr.locations] using h)
  | saveStackPointer | clearHead | clearResult | testEof =>
    simp [Instr.meaning, X86.Instr.locations] at h
  | _ => cases h

end Assembly

/-- What stands at a place of code that stands in the file. -/
theorem X86.File.getElem?_of_at {file : File} {pc : Nat} {xs : List Statement} (h : file.At pc xs)
    {k : Nat} (hk : k < xs.length) : file[pc + k]? = some xs[k] := by
  induction xs generalizing pc k with
  | nil => cases hk
  | cons x xs ih =>
    cases k with
    | zero => exact h.1
    | succ k =>
      have hrest := ih h.2 (Nat.lt_of_succ_lt_succ hk)
      rw [Nat.add_right_comm] at hrest
      exact hrest

/-- A label of code that stands in the file leads to a place in this code. -/
theorem X86.File.target?_of_at {file : File} {first : Nat} {body : List Statement} {name : String}
    (hnodup : file.labels.Nodup) (hat : file.At first body) (h : name ∈ labels body) :
    ∃ k, k < body.length ∧ file.target? name = some (first + k) := by
  obtain ⟨s, hs, hlabel⟩ := List.mem_filterMap.mp h
  obtain ⟨k, hk, rfl⟩ := List.getElem_of_mem hs
  have hget := getElem?_of_at hat hk
  refine ⟨k, hk, target?_of_label hnodup ?_⟩
  cases hstatement : body[k] with
  | label name' =>
    rw [hstatement] at hget hlabel
    cases hlabel
    exact hget
  | instr i =>
    rw [hstatement] at hlabel
    cases hlabel
  | zeroed symbol size =>
    rw [hstatement] at hlabel
    cases hlabel

section Frame

variable {α : Type} {t : Target} {lib : Library α} {file : File} {start c : Cpu α}

/-- What the frame relies on: a tape, a stack apart from it, and routines that keep to the calling
convention. -/
structure Hosted (t : Target) (lib : Library α) (file : File) (start : Cpu α) : Prop where
  tape : .zeroed t.tape cellCount ∈ file
  apart : ∀ k, k < File.savedBytes → ¬ file.Reserves lib (start.regs .rsp - File.savedBytes + k)
  putchar : Library.Conventional (start.regs .rsp - File.savedBytes) lib.putchar
  getchar : Library.Conventional (start.regs .rsp - File.savedBytes) lib.getchar

namespace Framed

theorem setReg (h : Framed t lib start c) {r : Reg} (hr : r.isPreserved = false) (v : UInt64) :
    Framed t lib start (c.setReg r v) := by
  have hother {r' : Reg} (hr' : r'.isPreserved = true) : (c.setReg r v).regs r' = c.regs r' :=
    Cpu.regs_setReg_of_preserved hr hr'
  refine ⟨(hother rfl).trans h.base, ?_, (hother rfl).trans h.stack, h.saved⟩
  rw [hother rfl]
  exact h.head

theorem next (h : Framed t lib start c) : Framed t lib start c.next :=
  ⟨h.base, h.head, h.stack, h.saved⟩

theorem setFlag (h : Framed t lib start c) (zero : Bool) : Framed t lib start { c with zero } :=
  ⟨h.base, h.head, h.stack, h.saved⟩

theorem setPc (h : Framed t lib start c) (pc : Nat) : Framed t lib start { c with pc } :=
  ⟨h.base, h.head, h.stack, h.saved⟩

theorem address (h : Framed t lib start c) :
    c.regs .r12 + c.regs .r13 = lib.address t.tape + UInt64.ofNat (c.regs .r13).toNat := by
  rw [h.base, UInt64.ofNat_toNat]

theorem write (hh : Hosted t lib file start) (h : Framed t lib start c) (p : Place) (v : Nat) :
    Framed t lib start (c.write v p.location) := by
  cases p with
  | cell =>
    refine ⟨h.base, h.head, h.stack, fun k hk => ?_⟩
    show (if _ = c.regs .r12 + c.regs .r13 then _ else _) = _
    rw [h.address, h.saved k hk, if_neg]
    intro heq
    exact hh.apart k hk ⟨t.tape, cellCount, _, hh.tape, h.head, heq⟩
  | head =>
    refine ⟨h.base, ?_, h.stack, h.saved⟩
    have hhead : (c.regs .r13).toNat < 65536 := h.head
    show (UInt64.ofNat ((c.regs .r13).toNat / 65536 * 65536 + v % 65536)).toNat < 65536
    rw [Nat.div_eq_of_lt hhead, UInt64.toNat_ofNat']
    omega

theorem compute (hh : Hosted t lib file start) (h : Framed t lib start c) (p : Place) (v : Nat) :
    Framed t lib start (c.compute p.location v) :=
  (h.write hh p _).setFlag _

theorem routine {f : Cpu α → Cpu α}
    (hf : Library.Conventional (start.regs .rsp - File.savedBytes) f) (h : Framed t lib start c) :
    Framed t lib start (f c) := by
  obtain ⟨hregs, hstack⟩ := hf c h.stack
  refine ⟨(hregs .r12 rfl).trans h.base, ?_, (hregs .rsp rfl).trans h.stack, fun k hk => ?_⟩
  · rw [hregs .r13 rfl]
    exact h.head
  · rw [hstack k hk, h.saved k hk]

theorem aligned (h : Framed t lib start c) (hstart : (start.regs .rsp).toNat % 16 = 8) :
    (c.regs .rsp).toNat % 16 = 0 := by
  have hsize : File.savedBytes.toNat = 24 := rfl
  rw [h.stack, UInt64.toNat_sub, hsize]
  omega

end Framed

/-- Where a step within the frame may lead: to the next statement, or to a label that is named. -/
theorem exec_in_frame (hh : Hosted t lib file start) {i : Assembly.Instr}
    (hi : i.staysInFrame = true)
    (hjumps : ∀ name ∈ File.jumpTargets [.instr (i.meaning t)], ∃ pc, file.target? name = some pc)
    (h : Framed t lib start c) :
    ∃ c', lib.exec file c (i.meaning t) = some c' ∧ Framed t lib start c' ∧
      (c'.pc = c.pc + 1 ∨
        ∃ name ∈ File.jumpTargets [.instr (i.meaning t)], file.target? name = some c'.pc) := by
  have htaken (name : String) (hname : name ∈ File.jumpTargets [.instr (i.meaning t)]) :
      ∃ pc, ((file.target? name).map fun pc => { c with pc }) = some { c with pc } ∧
        file.target? name = some pc := by
    obtain ⟨pc, hpc⟩ := hjumps name hname
    exact ⟨pc, by rw [hpc]; rfl, hpc⟩
  cases i with
  | push r | pop r => cases hi
  | saveStackPointer | loadTape | clearHead | ret => cases hi
  | clearResult =>
    exact ⟨_, Library.exec_xor_self c .rax, ((h.setReg rfl 0).next).setFlag _, .inl rfl⟩
  | inc p | dec p => exact ⟨_, rfl, (h.compute hh p _).next, .inl (by cases p <;> rfl)⟩
  | add p n | sub p n => exact ⟨_, rfl, (h.compute hh p _).next, .inl (by cases p <;> rfl)⟩
  | loadArgument => exact ⟨_, rfl, (h.setReg rfl _).next, .inl rfl⟩
  | storeResult => exact ⟨_, rfl, (h.write hh .cell _).next, .inl rfl⟩
  | call r =>
    refine ⟨_, exec_call t r, Framed.setPc ?_ _, .inl rfl⟩
    cases r with
    | putchar => exact h.routine hh.putchar
    | getchar => exact h.routine hh.getchar
  | testCell | testEof => exact ⟨_, rfl, h.next.setFlag _, .inl rfl⟩
  | jumpIfEqual l =>
    obtain ⟨pc, hjump, hpc⟩ := htaken (l.text t) List.mem_cons_self
    by_cases hzero : c.zero = true
    · refine ⟨_, ?_, h.setPc pc, .inr ⟨_, List.mem_cons_self, hpc⟩⟩
      rw [Instr.meaning, Library.exec, if_pos hzero, hjump]
    · refine ⟨_, ?_, h.next, .inl rfl⟩
      rw [Instr.meaning, Library.exec, if_neg hzero]
  | jumpIfNotEqual l =>
    obtain ⟨pc, hjump, hpc⟩ := htaken (l.text t) List.mem_cons_self
    by_cases hzero : c.zero = true
    · refine ⟨_, ?_, h.next, .inl rfl⟩
      rw [Instr.meaning, Library.exec, if_pos hzero]
    · refine ⟨_, ?_, h.setPc pc, .inr ⟨_, List.mem_cons_self, hpc⟩⟩
      rw [Instr.meaning, Library.exec, if_neg hzero, hjump]
  | jump l =>
    obtain ⟨pc, hjump, hpc⟩ := htaken (l.text t) List.mem_cons_self
    exact ⟨_, hjump, h.setPc pc, .inr ⟨_, List.mem_cons_self, hpc⟩⟩

/-- Code that stands at `first` in the file, stays in the frame, and jumps only within itself. -/
structure Body (t : Target) (file : File) (first : Nat) (body : List Statement) : Prop where
  placed : file.At first body
  stays : ∀ s ∈ body, (∃ name, s = .label name) ∨
    ∃ i : Assembly.Instr, i.staysInFrame = true ∧ s = .instr (i.meaning t)
  jumps : ∀ name ∈ File.jumpTargets body, ∃ k, k < body.length ∧
    file.target? name = some (first + k)

theorem Body.statement {first : Nat} {body : List Statement} (hb : Body t file first body)
    {pc : Nat} (hfirst : first ≤ pc) (hlast : pc < first + body.length) :
    ∃ s ∈ body, file[pc]? = some s := by
  have hlt : pc - first < body.length := by omega
  have hat := File.getElem?_of_at hb.placed hlt
  rw [Nat.add_sub_cancel' hfirst] at hat
  exact ⟨_, List.getElem_mem hlt, hat⟩

/-- A step from within the body stays in the frame, and leads within the body or to its end. -/
theorem Body.step {first : Nat} {body : List Statement} (hb : Body t file first body)
    (hh : Hosted t lib file start) (h : Framed t lib start c) (hfirst : first ≤ c.pc)
    (hlast : c.pc < first + body.length) :
    ∃ c', lib.step file c = some c' ∧ Framed t lib start c' ∧ first ≤ c'.pc ∧
      c'.pc ≤ first + body.length := by
  obtain ⟨s, hs, hat⟩ := hb.statement hfirst hlast
  rcases hb.stays s hs with ⟨name, rfl⟩ | ⟨i, hi, rfl⟩
  · have hpc : c.next.pc = c.pc + 1 := rfl
    exact ⟨c.next, Library.step_label hat, h.next, by omega, by omega⟩
  · have hnamed : ∀ name ∈ File.jumpTargets [.instr (i.meaning t)], name ∈ File.jumpTargets body :=
      fun name hname => by
        obtain ⟨s, hs', hname'⟩ := List.mem_filterMap.mp hname
        rw [List.mem_singleton.mp hs'] at hname'
        exact List.mem_filterMap.mpr ⟨_, hs, hname'⟩
    obtain ⟨c', hexec, hframed, hpc⟩ := exec_in_frame hh hi (fun name hname => by
      obtain ⟨k, -, hk⟩ := hb.jumps name (hnamed name hname)
      exact ⟨_, hk⟩) h
    refine ⟨c', Library.step_instr hat hexec, hframed, ?_⟩
    rcases hpc with hpc | ⟨name, hname, htarget⟩
    · omega
    · obtain ⟨k, hk, hk'⟩ := hb.jumps name (hnamed name hname)
      have hpc : c'.pc = first + k := Option.some.inj (htarget.symm.trans hk')
      omega

/-- A state before an instruction that neither addresses memory nor calls a routine. -/
theorem Safe.of_quiet {i : X86.Instr} (hat : file[c.pc]? = some (.instr i))
    (hlocations : ∀ base index, .byteAt base index ∉ i.locations)
    (hcall : ∀ symbol, i ≠ .call symbol)
    (hframe : (c.regs .r12 = lib.address t.tape ∧ (c.regs .r13).toNat < cellCount) ∨
      ∃ rest ∈ givingBack, file.At c.pc rest)
    (hstep : i ≠ .ret → ∃ c', lib.step file c = some c')
    (hreturns : i = .ret →
      (∀ r, r.isPreserved = true → c.regs r = start.regs r) ∧ c.regs .rax = 0) :
    Safe t lib file start c := by
  have hnext {i' : X86.Instr} (hat' : file[c.pc]? = some (.instr i')) : i' = i := by
    cases hat.symm.trans hat'
    rfl
  refine ⟨hframe, fun i' base index hat' hmem => ?_, fun symbol hat' => ?_,
    ⟨_, hat, nofun⟩, ?_, fun h => hreturns (hnext h).symm⟩
  · rw [hnext hat'] at hmem
    exact absurd hmem (hlocations base index)
  · exact absurd (hnext hat').symm (hcall symbol)
  · by_cases hret : i = .ret
    · rw [hret] at hat
      exact .inl hat
    · exact .inr (hstep hret)

theorem Safe.of_pop {r : Reg} {c' : Cpu α} (hat : file[c.pc]? = some (.instr (.pop r)))
    (hframe : (c.regs .r12 = lib.address t.tape ∧ (c.regs .r13).toNat < cellCount) ∨
      ∃ rest ∈ givingBack, file.At c.pc rest)
    (hstep : lib.step file c = some c') : Safe t lib file start c := by
  refine .of_quiet hat (fun _ _ => List.not_mem_nil) (fun _ heq => ?_) hframe
    (fun _ => ⟨c', hstep⟩) (fun heq => ?_)
  · cases heq
  · cases heq

theorem Body.safe {first : Nat} {body : List Statement} (hb : Body t file first body)
    (hh : Hosted t lib file start) (hstart : (start.regs .rsp).toNat % 16 = 8)
    (h : Framed t lib start c) (hfirst : first ≤ c.pc) (hlast : c.pc < first + body.length) :
    Safe t lib file start c := by
  obtain ⟨c', hstep, -⟩ := hb.step hh h hfirst hlast
  obtain ⟨s, hs, hat⟩ := hb.statement hfirst hlast
  refine ⟨.inl ⟨h.base, h.head⟩, fun i base index hi hmem => ?_, fun _ _ => h.aligned hstart,
    ⟨s, hat, fun symbol size heq => ?_⟩, .inr ⟨c', hstep⟩, fun hret => ?_⟩
  · rcases hb.stays s hs with ⟨name, rfl⟩ | ⟨i', -, rfl⟩
    · cases hat.symm.trans hi
    · cases hat.symm.trans hi
      obtain ⟨rfl, rfl⟩ := byteAt_of_mem_locations hmem
      exact ⟨_, h.head, h.address⟩
  · rcases hb.stays s hs with ⟨name, rfl⟩ | ⟨i', -, rfl⟩
    · cases heq
    · cases heq
  · rw [Library.step_of_returns hret] at hstep
    cases hstep

end Frame

section Reachable

variable {α : Type} {o : Options} {lib : Library α} {file : File} {start c c₁ : Cpu α}

theorem safe_of_closing (h : Framed o.target lib start c₁)
    (hcode : CodeAt o file c₁.pc (closing.map .instr)) {k : Nat}
    (hrun : lib.run file k c₁ = some c) : Safe o.target lib file start c := by
  obtain ⟨c₂, c₃, c₄, c₅, hstep₁, hstep₂, hstep₃, hstep₄, ⟨hpc₂, hpc₃, hpc₄, hpc₅⟩, hframed,
    hregs, hresult, -⟩ := closing_steps h hcode
  obtain ⟨c', hclosing, hreturns, -⟩ := run_closing h hcode
  obtain ⟨hle, -⟩ := Library.run_split hclosing hreturns hrun
  obtain ⟨hclear, hr13, hr12, hrbp, hret, -⟩ := hcode
  have hrun₁ := Library.run_one hstep₁
  have hrun₂ := Library.run_trans hrun₁ (Library.run_one hstep₂)
  have hrun₃ := Library.run_trans hrun₂ (Library.run_one hstep₃)
  have hrun₄ := Library.run_trans hrun₃ (Library.run_one hstep₄)
  have hrest₃ : file.At c₃.pc (epilogue.drop 2) := by
    rw [hpc₃]
    exact ⟨hr12, hrbp, hret, trivial⟩
  have hrest₄ : file.At c₄.pc (epilogue.drop 3) := by
    rw [hpc₄]
    exact ⟨hrbp, hret, trivial⟩
  have hrest₅ : file.At c₅.pc (epilogue.drop 4) := by
    rw [hpc₅]
    exact ⟨hret, trivial⟩
  rw [← hpc₂] at hr13
  obtain rfl | rfl | rfl | rfl | rfl : k = 0 ∨ k = 1 ∨ k = 2 ∨ k = 3 ∨ k = 4 := by omega
  · obtain rfl := Option.some.inj hrun
    refine .of_quiet hclear (fun base index hmem => ?_) (fun _ heq => ?_)
      (.inl ⟨h.base, h.head⟩) (fun _ => ⟨_, hstep₁⟩) (fun heq => ?_)
    · simp [Instr.meaning, X86.Instr.locations] at hmem
    · cases heq
    · cases heq
  · obtain rfl := Option.some.inj (hrun₁.symm.trans hrun)
    exact .of_pop hr13 (.inl ⟨hframed.base, hframed.head⟩) hstep₂
  · obtain rfl := Option.some.inj (hrun₂.symm.trans hrun)
    exact .of_pop hrest₃.1 (.inr ⟨_, by simp [givingBack], hrest₃⟩) hstep₃
  · obtain rfl := Option.some.inj (hrun₃.symm.trans hrun)
    exact .of_pop hrest₄.1 (.inr ⟨_, by simp [givingBack], hrest₄⟩) hstep₄
  · obtain rfl := Option.some.inj (hrun₄.symm.trans hrun)
    refine .of_quiet hrest₅.1 (fun _ _ => List.not_mem_nil) (fun _ heq => ?_)
      (.inr ⟨_, by simp [givingBack], hrest₅⟩) (fun hne => absurd rfl hne)
      (fun _ => ⟨hregs, hresult⟩)
    cases heq

/-- How far execution has come: it is inside the body, or so many steps behind its end. -/
inductive Stage (t : Target) (lib : Library α) (file : File) (start : Cpu α) (first : Nat)
    (body : List Statement) : Cpu α → Prop
  | inside {c : Cpu α} (h : Framed t lib start c) (hfirst : first ≤ c.pc)
      (hlast : c.pc < first + body.length) : Stage t lib file start first body c
  | leaving {c₁ c : Cpu α} (k : Nat) (h : Framed t lib start c₁)
      (hend : c₁.pc = first + body.length) (hrun : lib.run file k c₁ = some c) :
      Stage t lib file start first body c

variable {first : Nat} {body : List Statement} (hb : Body o.target file first body)
variable (hh : Hosted o.target lib file start)
include hb hh

theorem Stage.step {c' : Cpu α} (h : Stage o.target lib file start first body c)
    (hstep : lib.step file c = some c') : Stage o.target lib file start first body c' := by
  cases h with
  | inside hframed hfirst hlast =>
    obtain ⟨c'', hstep', hframed', hfirst', hlast'⟩ := hb.step hh hframed hfirst hlast
    obtain rfl := Option.some.inj (hstep'.symm.trans hstep)
    by_cases hend : c''.pc < first + body.length
    · exact .inside hframed' hfirst' hend
    · exact .leaving 0 hframed' (by omega) rfl
  | leaving k hframed hend hrun =>
    exact .leaving (k + 1) hframed hend (Library.run_trans hrun (Library.run_one hstep))

theorem Stage.run {n : Nat} {c' : Cpu α} (h : Stage o.target lib file start first body c)
    (hrun : lib.run file n c = some c') : Stage o.target lib file start first body c' := by
  induction n generalizing c with
  | zero => exact Option.some.inj hrun ▸ h
  | succ n ih =>
    obtain ⟨c₁, hstep, hrest⟩ := Option.bind_eq_some_iff.mp hrun
    exact ih (h.step hb hh hstep) hrest

/-- Every stage is safe, provided that the stack was aligned for a call when `start` was. -/
theorem Stage.safe (hstart : (start.regs .rsp).toNat % 16 = 8)
    (hclosing : CodeAt o file (first + body.length) (closing.map .instr))
    (h : Stage o.target lib file start first body c) : Safe o.target lib file start c := by
  cases h with
  | inside hframed hfirst hlast => exact hb.safe hh hstart hframed hfirst hlast
  | leaving k hframed hend hrun =>
    rw [← hend] at hclosing
    exact safe_of_closing hframed hclosing hrun

end Reachable

namespace Draft

theorem staysInFrame_updates {updates : List Assembly.Instr}
    (h : ∀ i ∈ updates, i.isUpdate = true) :
    (updates.map Line.instr).all Line.staysInFrame = true := by
  rw [List.all_map, List.all_eq_true]
  exact fun i hi => staysInFrame_of_isUpdate (h i hi)

/-- Only the end of a program writes instructions that leave the frame. -/
theorem staysInFrame_wrote (o : Options) (d : Draft) {c : Call} (hc : c ≠ .finish) :
    (d.wrote o c).all Line.staysInFrame = true := by
  obtain ⟨updates, hupdates, hwrote⟩ := d.wrote_eq o c
  rw [hwrote, List.all_append, staysInFrame_updates hupdates, Bool.true_and]
  cases c with
  | op op pos =>
    cases op with
    | increment | decrement | moveLeft | moveRight | output => rfl
    | input =>
      rw [fragment]
      cases o.eof <;> rfl
  | enterLoop pos => rfl
  | exitLoop pos =>
    rw [fragment]
    cases d.loops <;> rfl
  | finish => exact absurd rfl hc

theorem staysInFrame_code (o : Options) (d : Draft) {cs : List Call} (h : .finish ∉ cs) :
    (d.code o cs).all Line.staysInFrame = true :=
  all_code (fun d _ hc => staysInFrame_wrote o d fun heq => h (heq ▸ hc)) d

end Draft

namespace Program

theorem finish_notMem_spell (p : Program) : .finish ∉ p.spell := by
  induction p with
  | nil => exact List.not_mem_nil
  | op o pos rest ih => simpa [spell] using ih
  | loop pos body rest ihbody ih => simp [spell, ihbody, ih]

/-- The lines between the opening and the closing. -/
def bodyLines (o : Options) (p : Program) : List Line :=
  Draft.code o {} p.spell ++ (Draft.after o {} p.spell).pending.lines

theorem body_file (o : Options) (p : Program) :
    Body o.target (p.file o) 7 ((p.bodyLines o).flatMap (Line.statements o.target)) ∧
      CodeAt o (p.file o) (7 + ((p.bodyLines o).flatMap (Line.statements o.target)).length)
        (closing.map .instr) := by
  obtain ⟨-, hspell, hend⟩ := p.codeAt_file o
  obtain ⟨hflush, hclosing⟩ := codeAt_append.mp hend
  have hplaced : CodeAt o (p.file o) 7 (p.bodyLines o) := codeAt_append.mpr ⟨hspell, hflush⟩
  have htidy : Tidy o.target [] ((p.bodyLines o).flatMap (Line.statements o.target)) := by
    have hcode := Draft.tidy_code o {} p.spell (Tidy.nil o.target)
    rw [Draft.after_spell_loops, List.nil_append] at hcode
    rw [bodyLines, List.flatMap_append]
    exact hcode.append (Draft.settled_updates o.target fun _ => Pending.isUpdate_of_mem)
  refine ⟨⟨hplaced, fun s hs => ?_, fun name hname => ?_⟩, ?_⟩
  · obtain ⟨l, hl, hs⟩ := List.mem_flatMap.mp hs
    have hstays : (p.bodyLines o).all Line.staysInFrame = true := by
      rw [bodyLines, List.all_append, Draft.staysInFrame_code o {} p.finish_notMem_spell,
        Pending.lines, Draft.staysInFrame_updates fun _ => Pending.isUpdate_of_mem]
      rfl
    have hline := List.all_eq_true.mp hstays l hl
    cases l with
    | label l => exact .inl ⟨_, List.mem_singleton.mp hs⟩
    | instr i => exact .inr ⟨i, hline, List.mem_singleton.mp hs⟩
    | loopComment pos => exact absurd hs List.not_mem_nil
    | _ => cases hline
  · rcases htidy.known name hname with hdefined | ⟨k, hk, -⟩
    · exact File.target?_of_at (p.nodup_labels_file o) hplaced hdefined
    · exact absurd hk List.not_mem_nil
  · rw [Nat.add_assoc, ← extent_append] at hclosing
    exact hclosing

/-- A compiled program is safe in every state that it comes by behind its opening, on any library
and from any memory. Assumed are an entry with the stack as a call leaves it, room on the stack
apart from the tape, and routines that keep to the calling convention. -/
theorem every_reachable_state_is_safe (p : Program) (o : Options) :
    (∃ g, p.compile o {} = .ok (p.lineCount o {}) g ∧
      g.sink.accepted.toList = Sink.bytesOf (p.assembly o)) ∧
    File.ofText? (p.assembly o).toList = some (p.file o) ∧
    ∀ {α : Type} (lib : Library α) (start : Cpu α),
      (p.file o).target? o.target.entryPoint = some start.pc →
      (start.regs .rsp).toNat % 16 = 8 →
      (∀ k, k < File.savedBytes →
        ¬ (p.file o).Reserves lib (start.regs .rsp - File.savedBytes + k)) →
      Library.Conventional (start.regs .rsp - File.savedBytes) lib.putchar →
      Library.Conventional (start.regs .rsp - File.savedBytes) lib.getchar →
      ∃ c₀, lib.run (p.file o) (opening.length + 1) start = some c₀ ∧
        ∀ n c, lib.run (p.file o) n c₀ = some c → Safe o.target lib (p.file o) start c := by
  refine ⟨p.compile_eq o, p.ofText?_assembly o, ?_⟩
  intro α lib start hentry haligned hapart hputchar hgetchar
  have hpc : start.pc = 0 := Option.some.inj (hentry.symm.trans
    (File.target?_of_label (p.nodup_labels_file o) (p.getElem?_file_zero o)))
  have hh : Hosted o.target lib (p.file o) start :=
    ⟨p.zeroed_mem_file o, hapart, hputchar, hgetchar⟩
  obtain ⟨hopening, -⟩ := p.codeAt_file o
  obtain ⟨hb, hclosing⟩ := p.body_file o
  obtain ⟨c₀, hrun, hpc₀, hframed, -⟩ := run_opening (o := o) lib
    (hpc ▸ p.getElem?_file_zero o) (by rw [hpc]; exact hopening)
  rw [hpc, Nat.zero_add] at hpc₀
  refine ⟨c₀, hrun, fun n c hreach => ?_⟩
  have hstage : Stage o.target lib (p.file o) start 7
      ((p.bodyLines o).flatMap (Line.statements o.target)) c₀ := by
    by_cases hempty : c₀.pc < 7 + ((p.bodyLines o).flatMap (Line.statements o.target)).length
    · exact .inside hframed (by omega) hempty
    · exact .leaving 0 hframed (by omega) rfl
  exact (hstage.run hb hh hreach).safe hb hh haligned hclosing

/-- The head runs round the tape for ever in `+[>+]`, and all the while stays on the tape. -/
theorem safe_states_of_endless_loop :
    let p : Program := .op .increment ⟨1, 1, 0⟩ (.loop ⟨1, 2, 1⟩
      (.op .moveRight ⟨1, 3, 2⟩ (.op .increment ⟨1, 4, 3⟩ .nil)) .nil)
    let o : Options := { target := .linux, optLevel := .O0, eof := .max }
    let start := Cpu.caller []
    (p.file o).EnteredAt Library.plain "main" start ∧ (start.regs .rsp).toNat % 16 = 8 ∧
    Library.Conventional (start.regs .rsp - File.savedBytes) Library.plain.putchar ∧
    Library.Conventional (start.regs .rsp - File.savedBytes) Library.plain.getchar ∧
    ∃ c₀, Library.plain.run (p.file o) 7 start = some c₀ ∧
      ∀ n c, Library.plain.run (p.file o) n c₀ = some c →
        Safe .linux Library.plain (p.file o) start c := by
  intro p o start
  have hentered := p.enteredAt_plain o []
  have hlawful := Library.lawful_plain (p.file o) (start.regs .rsp - File.savedBytes)
  have haligned : (start.regs .rsp).toNat % 16 = 8 := by decide
  have hputchar := Library.conventional_of_spares hlawful.putchar_spares
  have hgetchar := Library.conventional_of_spares hlawful.getchar_spares
  obtain ⟨-, -, hsafe⟩ := every_reachable_state_is_safe p o
  exact ⟨hentered, haligned, hputchar, hgetchar,
    hsafe Library.plain start hentered.pc haligned hentered.apart hputchar hgetchar⟩

end Program

end TapeLang

import TapeLang.Proofs.Correspondence

/-!
The code of single instructions. Each piece of code that a call is compiled to takes the processor
from a state that stands for the machine before the instruction to one that stands for it
afterwards. The opening leads to a blank tape, and the closing back to the caller.
-/
namespace TapeLang

open Assembly X86

section Update

variable {α : Type} (lib : Library α) (file : File) (t : Target) (c : Cpu α)

theorem modulus_location (p : Place) : p.location.width.modulus = p.modulus := by
  cases p <;> rfl

theorem value_imm {p : Place} {n : Nat} (h : n < p.modulus) :
    c.value p.location.width (.imm n) = n := by
  rw [Cpu.value, modulus_location, Int.emod_eq_of_lt (by omega) (by omega)]
  exact Int.toNat_natCast n

/-- However an update is spelled, it adds its number to its place. -/
theorem exec_update {p : Place} {delta : Nat} {i : Assembly.Instr} (hlt : delta < p.modulus)
    (h : update? p delta = some i) :
    lib.exec file c (i.meaning t) =
      some (c.compute p.location (c.read p.location + delta)).next := by
  have hmodulus := modulus_location p
  unfold update? at h
  by_cases hzero : delta = 0
  · rw [if_pos hzero] at h
    cases h
  rw [if_neg hzero] at h
  by_cases hone : delta = 1
  · rw [if_pos hone] at h
    obtain rfl := Option.some.inj h
    rw [hone]
    rfl
  rw [if_neg hone] at h
  by_cases hlast : delta + 1 = p.modulus
  · rw [if_pos hlast] at h
    obtain rfl := Option.some.inj h
    have hdelta : p.location.width.modulus - 1 = delta := by omega
    rw [Instr.meaning, Library.exec, hdelta]
  rw [if_neg hlast] at h
  by_cases hsmall : 2 * delta ≤ p.modulus
  · rw [if_pos hsmall] at h
    obtain rfl := Option.some.inj h
    rw [Instr.meaning, Library.exec, value_imm c hlt]
  · rw [if_neg hsmall] at h
    obtain rfl := Option.some.inj h
    have hvalue := value_imm c (p := p) (n := p.modulus - delta) (by omega)
    have hdelta : p.location.width.modulus - (p.modulus - delta) = delta := by omega
    rw [Instr.meaning, Library.exec, hvalue, hdelta]

end Update

/-- The lines stand in the file from `pc` on. -/
def CodeAt (o : Options) (file : File) (pc : Nat) (ls : List Line) : Prop :=
  file.At pc (ls.flatMap (Line.statements o.target))

/-- The number of statements that the lines make. -/
def extent (o : Options) (ls : List Line) : Nat := (ls.flatMap (Line.statements o.target)).length

theorem codeAt_append {o : Options} {file : File} {pc : Nat} {ls ls' : List Line} :
    CodeAt o file pc (ls ++ ls') ↔ CodeAt o file pc ls ∧ CodeAt o file (pc + extent o ls) ls' := by
  unfold CodeAt extent
  rw [List.flatMap_append, File.at_append]

theorem extent_append (o : Options) (ls ls' : List Line) :
    extent o (ls ++ ls') = extent o ls + extent o ls' := by
  unfold extent
  rw [List.flatMap_append, List.length_append]

section Fragments

variable {α : Type} {o : Options} {lib : Library α} {file : File} {start c : Cpu α} {m : Machine}
variable (hl : Linked o.target lib file start)
include hl

theorem exec_pending {u : Pending} {i : Assembly.Instr} (hi : u.instr? = some i)
    (h : Agrees o lib start m c) :
    ∃ c', lib.exec file c (i.meaning o.target) = some c' ∧ c'.pc = c.pc + 1 ∧
      Agrees o lib start { m with tape := u.apply m.tape } c' := by
  cases u with
  | none => cases hi
  | cell delta =>
    have hexec := exec_update lib file o.target c (p := .cell) delta.toNat_lt hi
    exact ⟨_, hexec, rfl, (h.compute_cell hl delta).next⟩
  | head delta =>
    have hexec := exec_update lib file o.target c (p := .head) delta.toNat_lt hi
    exact ⟨_, hexec, rfl, (h.compute_head delta).next⟩

/-- Behind the updates that were held back the processor stands for the machine itself. -/
theorem reaches_flush {u : Pending} (hcode : CodeAt o file c.pc u.lines)
    (h : Holds o lib start u m c) :
    lib.Reaches file c (c.pc + extent o u.lines) (Agrees o lib start m) := by
  obtain ⟨tape, hagrees, happly⟩ := h
  unfold Pending.lines at hcode ⊢
  cases hi : u.instr? with
  | none =>
    rw [Pending.apply_of_instr?_eq_none hi] at happly
    obtain rfl := happly
    exact .refl rfl hagrees
  | some i =>
    rw [hi] at hcode
    obtain ⟨c', hexec, hpc, hagrees'⟩ := exec_pending hl hi hagrees
    rw [happly] at hagrees'
    have hstep : lib.step file c = some c' := Library.step_instr hcode.1 hexec
    exact .step hstep (.refl hpc hagrees')

theorem reaches_bump {d : Draft} {u : Pending} (hcode : CodeAt o file c.pc (d.bumpLines o u))
    (h : Holds o lib start d.pending m c) :
    lib.Reaches file c (c.pc + extent o (d.bumpLines o u))
      (Holds o lib start (d.bump o u).pending { m with tape := u.apply m.tape }) := by
  unfold Draft.bumpLines at hcode ⊢
  unfold Draft.bump
  cases hjoin : d.pending.join? u with
  | some joined =>
    have hjoined := h.join hjoin
    rw [hjoin] at hcode
    cases hfolds : o.optLevel.folds with
    | true => exact .refl rfl hjoined
    | false =>
      rw [hfolds] at hcode
      exact (reaches_flush hl hcode hjoined).trans fun c' hpc h' => .refl hpc h'.holds
  | none =>
    rw [hjoin] at hcode
    obtain ⟨hfirst, hsecond⟩ := codeAt_append.mp hcode
    simp only [extent_append]
    refine (reaches_flush hl hfirst h).trans fun c' hpc h' => ?_
    have hheld := h'.hold u
    cases hfolds : o.optLevel.folds with
    | true => exact .refl hpc hheld
    | false =>
      rw [hfolds, ← hpc] at hsecond
      have hflush := reaches_flush hl hsecond hheld
      rw [hpc, Nat.add_assoc] at hflush
      exact hflush.trans fun c'' hpc' h'' => .refl hpc' h''.holds

omit hl in
theorem routine?_text (t : Target) (r : Routine) :
    lib.routine? (r.text t) =
      some (match r with
        | .putchar => lib.putchar
        | .getchar => lib.getchar) := by
  cases t <;> cases r <;> rfl

omit hl in
theorem exec_call (t : Target) (r : Routine) :
    lib.exec file c (Instr.meaning t (.call r)) =
      some { (match r with
        | .putchar => lib.putchar
        | .getchar => lib.getchar) c with pc := c.pc + 1 } := by
  rw [Instr.meaning, Library.exec, routine?_text]
  rfl

theorem reaches_output
    (hcode : CodeAt o file c.pc [.instr .loadArgument, .instr (.call .putchar)])
    (h : Agrees o lib start m c) :
    lib.Reaches file c (c.pc + 2)
      (Agrees o lib start { m with sink := m.sink.take [m.tape.current] }) := by
  obtain ⟨hload, hcall, -⟩ := hcode
  let c₁ : Cpu α := (c.write (c.read Place.cell.location) (.reg .rdi .dword)).next
  have hstep₁ : lib.step file c = some c₁ := Library.step_instr hload rfl
  have hagrees : Agrees o lib start m c₁ := (h.setReg rfl _).next
  have hargument : (c₁.regs .rdi).toUInt8 = m.tape.current := by
    show (UInt64.ofNat (c.read Place.cell.location % 4294967296)).toUInt8 = _
    rw [h.read_cell]
    simp
  have hstep₂ : lib.step file c₁ = some { lib.putchar c₁ with pc := c₁.pc + 1 } :=
    Library.step_instr hcall (exec_call o.target .putchar)
  refine .step hstep₁ (.step hstep₂ (.refl rfl (Agrees.setPc ?_ _)))
  refine hagrees.routine hl (hl.lawful.putchar_spares c₁ hagrees.stack) rfl rfl ?_ ?_
  · rw [hl.lawful.putchar_input c₁ hagrees.stack]
    exact h.feed
  · rw [hl.lawful.putchar_output c₁ hagrees.stack, hargument]
    show (m.sink.accepted ++ [m.tape.current]).toList = c.output ++ _
    rw [Array.toList_appendList, h.output]

/-- What an input stores. -/
def received (eof : EofPolicy) (cell : UInt8) : List UInt8 → UInt8
  | [] => eof.onEof cell
  | b :: _ => b

theorem reaches_storeResult {v : UInt8}
    (hcode : file[c.pc]? = some (.instr (Instr.meaning o.target .storeResult)))
    (h : Agrees o lib start m c) (hv : (c.regs .rax).toNat % 256 = v.toNat) :
    lib.Reaches file c (c.pc + 1)
      (Agrees o lib start { m with tape := m.tape.setCurrent v }) := by
  have hstep : lib.step file c =
      some (c.write ((c.regs .rax).toNat % 256) Place.cell.location).next :=
    Library.step_instr hcode rfl
  have hstored := h.write_cell hl ((c.regs .rax).toNat % 256)
  rw [hv, UInt8.ofNat_toNat] at hstored
  rw [hv] at hstep
  exact .step hstep (.refl rfl hstored.next)

omit hl in
/-- The low byte of the answer is the byte read, or 255 at the end. -/
theorem mod_byte_of_answer {r : UInt64} {bytes : List UInt8} (cell : UInt8)
    (h : r.toNat % UInt32.size = Library.answer bytes) :
    r.toNat % 256 = (received .max cell bytes).toNat := by
  have hbyte : Library.answer bytes % 256 = (received .max cell bytes).toNat := by
    cases bytes with
    | nil =>
      show (UInt32.size - 1) % 256 = (255 : UInt8).toNat
      decide
    | cons b rest => exact Nat.mod_eq_of_lt b.toNat_lt
  have hsize : UInt32.size = 4294967296 := rfl
  rw [hsize] at h
  omega

omit hl in
theorem answer_eq_iff (bytes : List UInt8) :
    Library.answer bytes = UInt32.size - 1 ↔ bytes = [] := by
  cases bytes with
  | nil => exact ⟨fun _ => rfl, fun _ => rfl⟩
  | cons b rest =>
    have hlt := b.toNat_lt
    constructor
    · intro h
      have hanswer : b.toNat = 4294967295 := h
      omega
    · intro h
      cases h

omit hl in
theorem step_testEof {bytes : List UInt8}
    (hcode : file[c.pc]? = some (.instr (Instr.meaning o.target .testEof)))
    (hresult : (c.regs .rax).toNat % UInt32.size = Library.answer bytes) :
    lib.step file c = some { c.next with zero := bytes = [] } := by
  have hflag : decide ((c.regs .rax).toNat % UInt32.size = UInt32.size - 1) = decide (bytes = []) := by
    rw [hresult]
    exact decide_eq_decide.mpr (answer_eq_iff bytes)
  rw [← hflag]
  exact Library.step_instr hcode rfl

theorem reaches_storeInput_zero {id : Nat} {bytes : List UInt8}
    (hcode : CodeAt o file c.pc (Draft.inputLines id .zero).tail) (h : Agrees o lib start m c)
    (hresult : (c.regs .rax).toNat % UInt32.size = Library.answer bytes) :
    lib.Reaches file c (c.pc + 5) (Agrees o lib start
      { m with tape := m.tape.setCurrent (received .zero m.tape.current bytes) }) := by
  obtain ⟨htest, hjump, hclear, hlabel, hstore, -⟩ := hcode
  let c₁ : Cpu α := { c.next with zero := bytes = [] }
  have hagrees : Agrees o lib start m c₁ := h.next.setFlag _
  refine .step (step_testEof htest hresult) ?_
  cases bytes with
  | nil =>
    let c₂ : Cpu α := { (c₁.next.setReg .rax 0).next with zero := true }
    have hstep₁ : lib.step file c₁ = some c₁.next := Library.step_instr hjump rfl
    have hstep₂ : lib.step file c₁.next = some c₂ :=
      Library.step_instr hclear (Library.exec_xor_self c₁.next .rax)
    have hstep₃ : lib.step file c₂ = some c₂.next := Library.step_label hlabel
    have hagrees₂ : Agrees o lib start m c₂.next :=
      ((hagrees.next.setReg rfl 0).next.setFlag _).next
    refine .step hstep₁ (.step hstep₂ (.step hstep₃ ?_))
    exact reaches_storeResult hl hstore hagrees₂ rfl
  | cons b rest =>
    let c₂ : Cpu α := { c₁ with pc := c.pc + 1 + 1 + 1 }
    have hstep₁ : lib.step file c₁ = some c₂ :=
      Library.step_instr hjump (Library.jump_eq hl.nodup hlabel)
    have hstep₂ : lib.step file c₂ = some c₂.next := Library.step_label hlabel
    have hlow : (c.regs .rax).toNat % 256 = (received .max 0 (b :: rest)).toNat :=
      mod_byte_of_answer 0 hresult
    exact .step hstep₁ (.step hstep₂ (reaches_storeResult hl hstore (hagrees.setPc _).next hlow))

theorem reaches_storeInput_unchanged {id : Nat} {bytes : List UInt8}
    (hcode : CodeAt o file c.pc (Draft.inputLines id .unchanged).tail)
    (h : Agrees o lib start m c)
    (hresult : (c.regs .rax).toNat % UInt32.size = Library.answer bytes) :
    lib.Reaches file c (c.pc + 4) (Agrees o lib start
      { m with tape := m.tape.setCurrent (received .unchanged m.tape.current bytes) }) := by
  obtain ⟨htest, hjump, hstore, hlabel, -⟩ := hcode
  let c₁ : Cpu α := { c.next with zero := bytes = [] }
  have hagrees : Agrees o lib start m c₁ := h.next.setFlag _
  refine .step (step_testEof htest hresult) ?_
  cases bytes with
  | nil =>
    let c₂ : Cpu α := { c₁ with pc := c.pc + 1 + 1 + 1 }
    have hstep₁ : lib.step file c₁ = some c₂ :=
      Library.step_instr hjump (Library.jump_eq hl.nodup hlabel)
    have hstep₂ : lib.step file c₂ = some c₂.next := Library.step_label hlabel
    have hsame : m.tape.setCurrent (received .unchanged m.tape.current []) = m.tape :=
      m.tape.setCurrent_current
    rw [hsame]
    exact .step hstep₁ (.step hstep₂ (.refl rfl (hagrees.setPc _).next))
  | cons b rest =>
    have hstep₁ : lib.step file c₁ = some c₁.next := Library.step_instr hjump rfl
    have hlow : (c.regs .rax).toNat % 256 = (received .max 0 (b :: rest)).toNat :=
      mod_byte_of_answer 0 hresult
    refine .step hstep₁ ((reaches_storeResult hl hstore hagrees.next hlow).trans ?_)
    intro c₂ hpc hagrees₂
    replace hpc : c₂.pc = c.pc + 1 + 1 + 1 := hpc
    rw [← hpc] at hlabel
    exact .step (Library.step_label hlabel) (.refl (congrArg (· + 1) hpc) hagrees₂.next)

theorem reaches_input {id : Nat} (hcode : CodeAt o file c.pc (Draft.inputLines id o.eof))
    (h : Agrees o lib start m c) :
    lib.Reaches file c (c.pc + extent o (Draft.inputLines id o.eof))
      (Agrees o lib start
        { m with
          tape := m.tape.setCurrent (received o.eof m.tape.current c.input)
          feed := .ofBytes c.input.tail }) := by
  let c₁ : Cpu α := { lib.getchar c with pc := c.pc + 1 }
  have hroutine : Agrees o lib start { m with feed := .ofBytes c.input.tail } (lib.getchar c) := by
    refine h.routine hl (hl.lawful.getchar_spares c h.stack) rfl rfl ?_ ?_
    · rw [hl.lawful.getchar_input c h.stack]
    · rw [hl.lawful.getchar_output c h.stack]
      exact h.output
  have hagrees : Agrees o lib start { m with feed := .ofBytes c.input.tail } c₁ := hroutine.setPc _
  have hresult : (c₁.regs .rax).toNat % UInt32.size = Library.answer c.input :=
    hl.lawful.getchar_result c h.stack
  cases heof : o.eof with
  | max =>
    rw [heof] at hcode
    obtain ⟨hcall, hstore, -⟩ := hcode
    have hstep : lib.step file c = some c₁ :=
      Library.step_instr hcall (exec_call o.target .getchar)
    have hlow := mod_byte_of_answer m.tape.current hresult
    exact .step hstep (reaches_storeResult hl hstore hagrees hlow)
  | zero =>
    rw [heof] at hcode
    have hstep : lib.step file c = some c₁ :=
      Library.step_instr hcode.1 (exec_call o.target .getchar)
    have hstore : CodeAt o file c₁.pc (Draft.inputLines id .zero).tail := hcode.2
    have hend : c₁.pc + 5 = c.pc + extent o (Draft.inputLines id .zero) :=
      Nat.add_assoc c.pc 1 5
    rw [← hend]
    exact .step hstep (reaches_storeInput_zero hl hstore hagrees hresult)
  | unchanged =>
    rw [heof] at hcode
    have hstep : lib.step file c = some c₁ :=
      Library.step_instr hcode.1 (exec_call o.target .getchar)
    have hstore : CodeAt o file c₁.pc (Draft.inputLines id .unchanged).tail := hcode.2
    have hend : c₁.pc + 4 = c.pc + extent o (Draft.inputLines id .unchanged) :=
      Nat.add_assoc c.pc 1 4
    rw [← hend]
    exact .step hstep (reaches_storeInput_unchanged hl hstore hagrees hresult)

theorem reaches_flushed {u : Pending} {ls : List Line} {Q : Cpu α → Prop}
    (hcode : CodeAt o file c.pc (u.lines ++ ls)) (h : Holds o lib start u m c)
    (hrest : ∀ c', CodeAt o file c'.pc ls → Agrees o lib start m c' →
      lib.Reaches file c' (c'.pc + extent o ls) Q) :
    lib.Reaches file c (c.pc + extent o (u.lines ++ ls)) Q := by
  obtain ⟨hfirst, hsecond⟩ := codeAt_append.mp hcode
  refine (reaches_flush hl hfirst h).trans ?_
  intro c' hpc hagrees
  rw [extent_append, ← Nat.add_assoc, ← hpc]
  rw [← hpc] at hsecond
  exact hrest c' hsecond hagrees

omit hl in
theorem received_of_byte {bytes : List UInt8} {b : UInt8} {f : Feed} (eof : EofPolicy)
    (cell : UInt8) (h : (Feed.ofBytes bytes).Yields (.byte b) f) :
    received eof cell bytes = b := by
  rw [Feed.yields_iff] at h
  cases bytes with
  | nil => cases (Prod.mk.inj h).1
  | cons b' rest =>
    cases (Prod.mk.inj h).1
    rfl

omit hl in
theorem received_of_end {bytes : List UInt8} {f : Feed} (eof : EofPolicy) (cell : UInt8)
    (h : (Feed.ofBytes bytes).Yields .endOfInput f) :
    received eof cell bytes = eof.onEof cell := by
  rw [Feed.yields_iff] at h
  cases bytes with
  | nil => rfl
  | cons b rest => cases (Prod.mk.inj h).1

/-- The code of a simple instruction has the effect of the instruction. -/
theorem reaches_op {d : Draft} {op : Op} {pos : Position} {m₁ : Machine} (he : Effect op m m₁)
    (hcode : CodeAt o file c.pc (d.wrote o (.op op pos))) (h : Holds o lib start d.pending m c) :
    lib.Reaches file c (c.pc + extent o (d.wrote o (.op op pos)))
      (Holds o lib start (d.next o (.op op pos)).pending m₁) := by
  cases he with
  | increment ht =>
    rw [(Tape.stores_add_one _ _).mp ht]
    exact reaches_bump hl hcode h
  | decrement ht =>
    have happly : m.tape.decrement = (Pending.cell 255).apply m.tape :=
      congrArg m.tape.setCurrent (by grind)
    rw [(Tape.stores_sub_one _ _).mp ht, happly]
    exact reaches_bump hl hcode h
  | moveLeft ht =>
    have happly : m.tape.moveLeft = (Pending.head 65535).apply m.tape :=
      congrArg m.tape.setHead (by grind)
    rw [(Tape.moves_sub_one _ _).mp ht, happly]
    exact reaches_bump hl hcode h
  | moveRight ht =>
    rw [(Tape.moves_add_one _ _).mp ht]
    exact reaches_bump hl hcode h
  | output hroom =>
    refine reaches_flushed hl hcode h fun c' hcode' hagrees => ?_
    exact (reaches_output hl hcode' hagrees).trans fun c'' hpc h'' => .refl hpc h''.holds
  | input hy ht =>
    refine reaches_flushed hl hcode h fun c' hcode' hagrees => ?_
    rw [hagrees.feed] at hy
    have hinput := reaches_input hl hcode' hagrees
    rw [received_of_byte _ _ hy, ← (Tape.stores_byte _ _ _).mp ht,
      ← Feed.ofBytes_of_yields hy] at hinput
    exact hinput.trans fun c'' hpc h'' => .refl hpc h''.holds
  | inputAtEnd hy hvalue ht =>
    rw [EofPolicy.leaves_iff.mp hvalue] at ht
    refine reaches_flushed hl hcode h fun c' hcode' hagrees => ?_
    rw [hagrees.feed] at hy
    have hreceived : received o.eof m.tape.current c'.input = m.eof.onEof m.tape.current := by
      rw [hagrees.eof]
      exact received_of_end _ _ hy
    have hinput := reaches_input hl hcode' hagrees
    rw [hreceived, ← (Tape.stores_byte _ _ _).mp ht, ← Feed.ofBytes_of_yields hy] at hinput
    exact hinput.trans fun c'' hpc h'' => .refl hpc h''.holds

end Fragments

section Ends

variable {α : Type} {o : Options} {lib : Library α} {file : File} {start c : Cpu α} {m : Machine}

/-- From the entry the opening leads to a frame whose head is on cell 0. -/
theorem run_opening (lib : Library α) {entry : String}
    (hentry : file[start.pc]? = some (.label entry))
    (hcode : CodeAt o file (start.pc + 1) (opening.map .instr)) :
    ∃ c, lib.run file 7 start = some c ∧ c.pc = start.pc + 7 ∧ Framed o.target lib start c ∧
      c.regs .r13 = 0 ∧ c.memory = (saved start).memory ∧ c.input = start.input ∧
      c.output = start.output := by
  obtain ⟨hrbp, hframe, hr12, hr13, htape, hhead, -⟩ := hcode
  let c₁ := (start.next.push .rbp).next
  let c₂ := (c₁.write (c₁.value .qword (.loc (.reg .rsp .qword))) (.reg .rbp .qword)).next
  let c₃ := (c₂.push .r12).next
  let c₄ := (c₃.push .r13).next
  let c₅ := (c₄.setReg .r12 (lib.address o.target.tape)).next
  let c₆ : Cpu α := { (c₅.setReg .r13 0).next with zero := true }
  have hstep₀ : lib.step file start = some start.next := Library.step_label hentry
  have hstep₁ : lib.step file start.next = some c₁ := Library.step_instr hrbp rfl
  have hstep₂ : lib.step file c₁ = some c₂ := Library.step_instr hframe rfl
  have hstep₃ : lib.step file c₂ = some c₃ := Library.step_instr hr12 rfl
  have hstep₄ : lib.step file c₃ = some c₄ := Library.step_instr hr13 rfl
  have hstep₅ : lib.step file c₄ = some c₅ := Library.step_instr htape rfl
  have hstep₆ : lib.step file c₅ = some c₆ :=
    Library.step_instr hhead (Library.exec_xor_self c₅ .r13)
  have hrun : lib.run file 7 start = some c₆ :=
    Library.run_trans (Library.run_one hstep₀) (Library.run_trans (Library.run_one hstep₁)
      (Library.run_trans (Library.run_one hstep₂) (Library.run_trans (Library.run_one hstep₃)
        (Library.run_trans (Library.run_one hstep₄) (Library.run_trans (Library.run_one hstep₅)
          (Library.run_one hstep₆))))))
  have hstack : start.regs .rsp - 8 - 8 - 8 = start.regs .rsp - File.savedBytes := by
    rw [File.savedBytes]
    grind
  have hzero : (0 : UInt64).toNat < cellCount := by decide
  exact ⟨c₆, hrun, rfl, ⟨rfl, hzero, hstack, fun _ _ => rfl⟩, rfl, rfl, rfl, rfl⟩

/-- On reserved memory that is zero this is a blank tape. -/
theorem reaches_opening {entry : String} (hl : Linked o.target lib file start)
    (hentry : file[start.pc]? = some (.label entry))
    (hcode : CodeAt o file (start.pc + 1) (opening.map .instr))
    (hzeroed : ∀ a, file.Reserves lib a → start.memory a = 0) (houtput : start.output = []) :
    lib.Reaches file start (start.pc + 7)
      (Agrees o lib start { feed := .ofBytes start.input, eof := o.eof }) := by
  obtain ⟨c, hrun, hpc, hframed, hhead, hmemory, hinput, hout⟩ := run_opening lib hentry hcode
  refine ⟨7, c, hrun, hpc, hframed.base, hhead, fun i => ?_, hframed.stack, hframed.saved,
    by rw [hinput], (hout.trans houtput).symm, rfl⟩
  let a := cellAddress (lib.address o.target.tape) i
  have hreserves : file.Reserves lib a := hl.reserves_cell i
  have hle : File.savedBytes ≤ a - (start.regs .rsp - File.savedBytes) := by
    apply UInt64.not_lt.mp
    intro hlt
    have hapart := hl.apart _ hlt
    rw [show start.regs .rsp - File.savedBytes + (a - (start.regs .rsp - File.savedBytes)) = a
      by grind] at hapart
    exact hapart hreserves
  have hzero : (saved start).memory a = 0 :=
    (saved_memory_of_apart start hle).trans (hzeroed a hreserves)
  rw [Tape.get_blank, hmemory]
  exact hzero

/-- The four steps of the closing. The first keeps the frame, the others give the registers back to
the caller, and none touches anything else. -/
theorem closing_steps (h : Framed o.target lib start c)
    (hcode : CodeAt o file c.pc (closing.map .instr)) :
    ∃ c₁ c₂ c₃ c₄, lib.step file c = some c₁ ∧ lib.step file c₁ = some c₂ ∧
      lib.step file c₂ = some c₃ ∧ lib.step file c₃ = some c₄ ∧
      (c₁.pc = c.pc + 1 ∧ c₂.pc = c.pc + 2 ∧ c₃.pc = c.pc + 3 ∧ c₄.pc = c.pc + 4) ∧
      Framed o.target lib start c₁ ∧
      (∀ r, r.isPreserved = true → c₄.regs r = start.regs r) ∧ c₄.regs .rax = 0 ∧
      c₄.memory = c.memory ∧ c₄.output = c.output := by
  obtain ⟨hclear, hr13, hr12, hrbp, -⟩ := hcode
  let c₁ : Cpu α := { (c.setReg .rax 0).next with zero := true }
  let c₂ := (c₁.pop .r13).next
  let c₃ := (c₂.pop .r12).next
  let c₄ := (c₃.pop .rbp).next
  have hstep₁ : lib.step file c = some c₁ :=
    Library.step_instr hclear (Library.exec_xor_self c .rax)
  have hstep₂ : lib.step file c₁ = some c₂ := Library.step_instr hr13 rfl
  have hstep₃ : lib.step file c₂ = some c₃ := Library.step_instr hr12 rfl
  have hstep₄ : lib.step file c₃ = some c₄ := Library.step_instr hrbp rfl
  have hsaved (r : Saved) :
      UInt64.ofNat (load c.memory (c.regs .rsp + UInt64.ofNat (savedAt r)) 8) =
        start.regs r.reg := by
    rw [h.load_saved r, UInt64.ofNat_toNat]
  have hsp₃ : c.regs .rsp + 8 + 8 = c.regs .rsp + UInt64.ofNat 16 := by grind
  refine ⟨c₁, c₂, c₃, c₄, hstep₁, hstep₂, hstep₃, hstep₄, ⟨rfl, rfl, rfl, rfl⟩,
    ⟨h.base, h.head, h.stack, h.saved⟩, fun r hr => ?_, rfl, rfl, rfl⟩
  cases r with
  | rax => cases hr
  | rdi => cases hr
  | rbp =>
    show UInt64.ofNat (load c.memory (c.regs .rsp + 8 + 8) 8) = _
    rw [hsp₃]
    exact hsaved .rbp
  | rsp =>
    show c.regs .rsp + 8 + 8 + 8 = start.regs .rsp
    rw [h.stack, File.savedBytes]
    grind
  | r12 => exact hsaved .r12
  | r13 =>
    have hfirst := hsaved .r13
    rw [savedAt, add_ofNat_zero] at hfirst
    exact hfirst

/-- The closing returns with result zero and the registers of the caller. -/
theorem run_closing (h : Framed o.target lib start c)
    (hcode : CodeAt o file c.pc (closing.map .instr)) :
    ∃ c', lib.run file 4 c = some c' ∧ file.Returns c' ∧
      (∀ r, r.isPreserved = true → c'.regs r = start.regs r) ∧ c'.regs .rax = 0 ∧
      c'.memory = c.memory ∧ c'.output = c.output := by
  obtain ⟨c₁, c₂, c₃, c₄, hstep₁, hstep₂, hstep₃, hstep₄, hpc, -, hrest⟩ :=
    closing_steps h hcode
  obtain ⟨-, -, -, -, hret, -⟩ := hcode
  have hrun : lib.run file 4 c = some c₄ :=
    Library.run_trans (Library.run_one hstep₁) (Library.run_trans (Library.run_one hstep₂)
      (Library.run_trans (Library.run_one hstep₃) (Library.run_one hstep₄)))
  have hreturns : file.Returns c₄ := by
    rw [File.Returns, hpc.2.2.2]
    exact hret
  exact ⟨c₄, hrun, hreturns, hrest⟩

end Ends

end TapeLang

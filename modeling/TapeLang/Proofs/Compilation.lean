import TapeLang.Proofs.Fragments
import TapeLang.Proofs.Interpretation

/-!
Compiled programs do what the programs do. The processor follows an execution from the code of one
instruction to the code of the next, so where the execution completes it reaches the closing and
returns. Conversely a run that returns has come through the whole program: every turn of a loop
takes at least one step, so there are only so many turns.
-/
namespace TapeLang

open Assembly X86

namespace Draft

/-- The draft at the end of the body of a loop. -/
def afterBody (o : Options) (d : Draft) (pos : Position) (body : Program) : Draft :=
  (d.next o (.enterLoop pos)).after o body.spell

/-- The draft behind a loop. -/
def afterLoop (o : Options) (d : Draft) (pos : Position) (body : Program) : Draft :=
  (d.afterBody o pos body).next o (.exitLoop pos)

theorem code_loop (o : Options) (d : Draft) (pos : Position) (body rest : Program) :
    d.code o (Program.loop pos body rest).spell =
      d.pending.lines ++ d.flushed.code o (Program.loop pos body rest).spell := by
  simp only [Program.spell, code, wrote, List.append_assoc]
  rfl

theorem after_loop (o : Options) (d : Draft) (pos : Position) (body rest : Program) :
    d.after o (Program.loop pos body rest).spell = (d.afterLoop o pos body).after o rest.spell := by
  rw [Program.spell, after, after_append]
  rfl

theorem code_flushed_loop (o : Options) (d : Draft) (pos : Position) (body rest : Program) :
    d.flushed.code o (Program.loop pos body rest).spell =
      [.label (.loopStart d.nextLoop), .loopComment pos, .instr .testCell,
        .instr (.jumpIfEqual (.loopEnd d.nextLoop))] ++
      ((d.next o (.enterLoop pos)).code o body.spell ++
      ((d.afterBody o pos body).pending.lines ++
      ([.instr (.jump (.loopStart d.nextLoop)), .label (.loopEnd d.nextLoop)] ++
      (d.afterLoop o pos body).code o rest.spell))) := by
  have hloops : (d.afterBody o pos body).loops = d.nextLoop :: d.loops :=
    after_spell_loops o body (d.next o (.enterLoop pos))
  have hexit : (d.afterBody o pos body).wrote o (.exitLoop pos) =
      (d.afterBody o pos body).pending.lines ++
        [.instr (.jump (.loopStart d.nextLoop)), .label (.loopEnd d.nextLoop)] := by
    rw [wrote, hloops]
    rfl
  rw [Program.spell, code, code_append, code,
    ← List.append_assoc (afterBody o d pos body).pending.lines, ← hexit]
  rfl

end Draft

/-- Where the parts of a loop stand, the first of them at `pc`. -/
structure LoopAt (o : Options) (file : File) (pc : Nat) (d : Draft) (pos : Position)
    (body rest : Program) (back : Nat) : Prop where
  start : file[pc]? = some (.label ((Label.loopStart d.nextLoop).text o.target))
  test : file[pc + 1]? = some (.instr (Instr.meaning o.target .testCell))
  leave : file[pc + 2]? =
    some (.instr (Instr.meaning o.target (.jumpIfEqual (.loopEnd d.nextLoop))))
  inside : CodeAt o file (pc + 3) ((d.next o (.enterLoop pos)).code o body.spell)
  flush : CodeAt o file (pc + 3 + extent o ((d.next o (.enterLoop pos)).code o body.spell))
    (d.afterBody o pos body).pending.lines
  atBack : back = pc + 3 + extent o ((d.next o (.enterLoop pos)).code o body.spell) +
    extent o (d.afterBody o pos body).pending.lines
  again : file[back]? = some (.instr (Instr.meaning o.target (.jump (.loopStart d.nextLoop))))
  finish : file[back + 1]? = some (.label ((Label.loopEnd d.nextLoop).text o.target))
  behind : CodeAt o file (back + 2) ((d.afterLoop o pos body).code o rest.spell)
  atEnd : pc + extent o (d.flushed.code o (Program.loop pos body rest).spell) =
    back + 2 + extent o ((d.afterLoop o pos body).code o rest.spell)

theorem loopAt_of_codeAt {o : Options} {file : File} {pc : Nat} {d : Draft} {pos : Position}
    {body rest : Program}
    (h : CodeAt o file pc (d.flushed.code o (Program.loop pos body rest).spell)) :
    ∃ back, LoopAt o file pc d pos body rest back := by
  have hcode := d.code_flushed_loop o pos body rest
  have hend := congrArg (extent o) hcode
  rw [hcode] at h
  obtain ⟨hhead, h⟩ := codeAt_append.mp h
  obtain ⟨hbody, h⟩ := codeAt_append.mp h
  obtain ⟨hflush, h⟩ := codeAt_append.mp h
  obtain ⟨htail, hrest⟩ := codeAt_append.mp h
  obtain ⟨hstart, htest, hleave, -⟩ := hhead
  obtain ⟨hagain, hfinish, -⟩ := htail
  refine ⟨_, hstart, htest, hleave, hbody, hflush, rfl, hagain, hfinish, hrest, ?_⟩
  rw [hend]
  simp only [extent_append]
  have hhead : extent o [.label (.loopStart d.nextLoop), .loopComment pos, .instr .testCell,
      .instr (.jumpIfEqual (.loopEnd d.nextLoop))] = 3 := rfl
  have htail : extent o [.instr (.jump (.loopStart d.nextLoop)),
      .label (.loopEnd d.nextLoop)] = 2 := rfl
  omega

section Loop

variable {α : Type} {o : Options} {lib : Library α} {file : File} {start c : Cpu α} {m : Machine}

theorem step_testCell (hcode : file[c.pc]? = some (.instr (Instr.meaning o.target .testCell)))
    (h : Agrees o lib start m c) :
    lib.step file c = some { c.next with zero := m.tape.current = 0 } := by
  have hflag : decide (c.read Place.cell.location = 0) = decide (m.tape.current = 0) := by
    rw [h.read_cell]
    exact decide_eq_decide.mpr (UInt8.toNat_inj (b := 0))
  rw [← hflag]
  exact Library.step_instr hcode rfl

variable (hl : Linked o.target lib file start)
variable {pc back : Nat} {d : Draft} {pos : Position} {body rest : Program}
variable (hloop : LoopAt o file pc d pos body rest back)
include hloop

theorem reaches_tested (hpc : c.pc = pc + 1) (h : Agrees o lib start m c) :
    lib.Reaches file c (pc + 2) fun c₁ =>
      Agrees o lib start m c₁ ∧ (c₁.zero = true ↔ m.tape.current = 0) := by
  have htest := hloop.test
  rw [← hpc] at htest
  refine .step (step_testCell htest h) (.refl (congrArg (· + 1) hpc) ⟨h.next.setFlag _, ?_⟩)
  exact decide_eq_true_iff

theorem reaches_inside (hpc : c.pc = pc + 1) (h : Agrees o lib start m c)
    (hcell : m.tape.current ≠ 0) : lib.Reaches file c (pc + 3) (Agrees o lib start m) := by
  refine (reaches_tested hloop hpc h).trans fun c₁ hpc₁ ⟨h₁, hzero⟩ => ?_
  have hleave := hloop.leave
  rw [← hpc₁] at hleave
  have hstep : lib.step file c₁ = some c₁.next := by
    refine Library.step_instr hleave ?_
    show (if c₁.zero then _ else _) = _
    exact if_neg (mt hzero.mp hcell)
  exact .step hstep (.refl (congrArg (· + 1) hpc₁) h₁.next)

include hl

theorem reaches_behind (hpc : c.pc = pc + 1) (h : Agrees o lib start m c)
    (hcell : m.tape.current = 0) : lib.Reaches file c (back + 2) (Agrees o lib start m) := by
  refine (reaches_tested hloop hpc h).trans fun c₁ hpc₁ ⟨h₁, hzero⟩ => ?_
  let c₂ : Cpu α := { c₁ with pc := back + 1 }
  have hleave := hloop.leave
  rw [← hpc₁] at hleave
  have hstep : lib.step file c₁ = some c₂ := by
    refine Library.step_instr hleave ?_
    show (if c₁.zero then _ else _) = _
    rw [if_pos (hzero.mpr hcell)]
    exact Library.jump_eq hl.nodup hloop.finish
  have hstep' : lib.step file c₂ = some c₂.next := Library.step_label hloop.finish
  exact .step hstep (.step hstep' (.refl rfl (h₁.setPc _).next))

theorem reaches_start
    (hpc : c.pc = pc + 3 + extent o ((d.next o (.enterLoop pos)).code o body.spell))
    (h : Holds o lib start (d.afterBody o pos body).pending m c) :
    lib.Reaches file c pc (Agrees o lib start m) := by
  have hflush := hloop.flush
  rw [← hpc] at hflush
  refine (reaches_flush hl hflush h).trans fun c₁ hpc₁ h₁ => ?_
  have hagain := hloop.again
  rw [hloop.atBack, ← hpc, ← hpc₁] at hagain
  have hstep : lib.step file c₁ = some { c₁ with pc } :=
    Library.step_instr hagain (Library.jump_eq hl.nodup hloop.start)
  exact .step hstep (.refl rfl (h₁.setPc _))

end Loop

section Simulation

variable {α : Type} {o : Options} {lib : Library α} {file : File} {start : Cpu α}
variable (hl : Linked o.target lib file start)
include hl

/-- The processor follows an execution through the code of a program, whatever is held back on
the way. -/
theorem reaches_of_executes {p : Program} {m : Machine} {x : Ending} (hx : Executes p m x) :
    ∀ (m' : Machine) (d : Draft) (c : Cpu α), x = .completes m' →
      CodeAt o file c.pc (d.code o p.spell) → Holds o lib start d.pending m c →
      lib.Reaches file c (c.pc + extent o (d.code o p.spell))
        (Holds o lib start (d.after o p.spell).pending m') := by
  induction hx with
  | nil =>
    intro m' d c heq hcode h
    cases heq
    exact .refl rfl h
  | @op op pos rest m m₁ x he hrest ih =>
    intro m' d c heq hcode h
    obtain ⟨hfirst, hsecond⟩ := codeAt_append.mp hcode
    refine (reaches_op hl he hfirst h).trans fun c₁ hpc h₁ => ?_
    rw [← hpc] at hsecond
    have hrest := ih m' (d.next o (.op op pos)) c₁ heq hsecond h₁
    rw [hpc, Nat.add_assoc, ← extent_append] at hrest
    exact hrest
  | stop hr =>
    intro m' d c heq
    cases heq
  | @loopDone pos body rest m x hcell hrest ih =>
    intro m' d c heq hcode h
    rw [Draft.code_loop] at hcode ⊢
    rw [Draft.after_loop]
    refine reaches_flushed hl hcode h fun c₁ hcode₁ h₁ => ?_
    obtain ⟨back, hloop⟩ := loopAt_of_codeAt hcode₁
    rw [hloop.atEnd]
    refine .step (Library.step_label hloop.start) ?_
    refine (reaches_behind hl hloop rfl h₁.next hcell).trans fun c₂ hpc h₂ => ?_
    have hbehind := hloop.behind
    rw [← hpc] at hbehind ⊢
    exact ih m' (d.afterLoop o pos body) c₂ heq hbehind h₂.holds
  | @loopTurn pos body rest m m₁ x hcell hbody hagain ihbody ihagain =>
    intro m' d c heq hcode h
    rw [Draft.code_loop] at hcode ⊢
    refine reaches_flushed hl hcode h fun c₁ hcode₁ h₁ => ?_
    obtain ⟨back, hloop⟩ := loopAt_of_codeAt hcode₁
    refine .step (Library.step_label hloop.start) ?_
    refine (reaches_inside hloop rfl h₁.next hcell).trans fun c₂ hpc h₂ => ?_
    have hinside := hloop.inside
    rw [← hpc] at hinside
    refine (ihbody m₁ (d.next o (.enterLoop pos)) c₂ rfl hinside h₂.holds).trans ?_
    intro c₃ hpc₃ h₃
    rw [hpc] at hpc₃
    refine (reaches_start hl hloop hpc₃ h₃).trans fun c₄ hpc₄ h₄ => ?_
    rw [← hpc₄] at hcode₁ ⊢
    exact ihagain m' d.flushed c₄ heq hcode₁ h₄.holds
  | loopStop hcell hbody ihbody =>
    intro m' d c heq
    cases heq

/-- A run that returns has come through the program. The outer induction is on a bound for the
number of steps, because a loop is met again with fewer of them; the inner one is on the program. -/
theorem executes_of_ends (bound : Nat) :
    ∀ (p : Program) (d : Draft) (m : Machine) (c : Cpu α) (n : Nat), n < bound →
      m.Untroubled → CodeAt o file c.pc (d.code o p.spell) → Holds o lib start d.pending m c →
      lib.Ends file n c → ∃ m', Executes p m (.completes m') := by
  induction bound with
  | zero =>
    intro p d m c n hn
    omega
  | succ bound ihbound =>
    intro p
    induction p with
    | nil =>
      intro d m c n hn hm hcode h hends
      exact ⟨m, .nil⟩
    | op op pos rest ih =>
      intro d m c n hn hm hcode h hends
      obtain ⟨m₁, he⟩ := hm.effect op
      obtain ⟨hfirst, hsecond⟩ := codeAt_append.mp hcode
      obtain ⟨n₁, c₁, hle, hpc, h₁, hends₁⟩ := hends.reaches (reaches_op hl he hfirst h)
      rw [← hpc] at hsecond
      obtain ⟨m', hrest⟩ := ih _ m₁ c₁ n₁ (by omega) (he.untroubled hm) hsecond h₁ hends₁
      exact ⟨m', .op he hrest⟩
    | loop pos body rest ihbody ihrest =>
      intro d m c n hn hm hcode h hends
      rw [Draft.code_loop] at hcode
      obtain ⟨hflush, hcode₁⟩ := codeAt_append.mp hcode
      obtain ⟨n₁, c₁, hle₁, hpc₁, h₁, hends₁⟩ := hends.reaches (reaches_flush hl hflush h)
      rw [← hpc₁] at hcode₁
      obtain ⟨back, hloop⟩ := loopAt_of_codeAt hcode₁
      obtain ⟨n₂, hlt, hends₂⟩ := hends₁.step (Library.step_label hloop.start)
      by_cases hcell : m.tape.current = 0
      · obtain ⟨n₃, c₃, hle₃, hpc₃, h₃, hends₃⟩ :=
          hends₂.reaches (reaches_behind hl hloop rfl h₁.next hcell)
        have hbehind := hloop.behind
        rw [← hpc₃] at hbehind
        obtain ⟨m', hrest⟩ := ihrest _ m c₃ n₃ (by omega) hm hbehind h₃.holds hends₃
        exact ⟨m', .loopDone hcell hrest⟩
      · obtain ⟨n₃, c₃, hle₃, hpc₃, h₃, hends₃⟩ :=
          hends₂.reaches (reaches_inside hloop rfl h₁.next hcell)
        have hinside := hloop.inside
        rw [← hpc₃] at hinside
        obtain ⟨m₁, hbody⟩ := ihbody _ m c₃ n₃ (by omega) hm hinside h₃.holds hends₃
        obtain ⟨m₂, heq, hm₁⟩ := hbody.completes hm
        cases heq
        obtain ⟨n₄, c₄, hle₄, hpc₄, h₄, hends₄⟩ :=
          hends₃.reaches (reaches_of_executes hl hbody m₁ _ c₃ rfl hinside h₃.holds)
        rw [hpc₃] at hpc₄
        obtain ⟨n₅, c₅, hle₅, hpc₅, h₅, hends₅⟩ :=
          hends₄.reaches (reaches_start hl hloop hpc₄ h₄)
        rw [← hpc₅] at hcode₁
        obtain ⟨m', hagain⟩ :=
          ihbound (.loop pos body rest) d.flushed m₁ c₅ n₅ (by omega) hm₁ hcode₁ h₅.holds hends₅
        exact ⟨m', .loopTurn hcell hbody hagain⟩

end Simulation

namespace X86

/-- What ends the code: result zero, the registers of the caller back, return. -/
def epilogue : List Statement :=
  [.instr (.xor (.reg .rax .dword) (.loc (.reg .rax .dword))), .instr (.pop .r13),
    .instr (.pop .r12), .instr (.pop .rbp), .instr .ret]

/-- Routines that do what they have to and nothing else, with the tape at address zero. -/
def Library.plain : Library Unit where
  address _ := 0
  putchar c := { c with output := c.output ++ [(c.regs .rdi).toUInt8] }
  getchar c :=
    { c.setReg .rax (UInt64.ofNat (Library.answer c.input)) with input := c.input.tail }

theorem Library.lawful_plain (file : File) (sp : UInt64) : plain.Lawful file sp where
  putchar_spares _ _ := ⟨fun _ _ => rfl, fun _ _ => rfl, fun _ _ => rfl⟩
  putchar_input _ _ := rfl
  putchar_output _ _ := rfl
  getchar_spares c _ := by
    refine ⟨fun r hr => if_neg ?_, fun _ _ => rfl, fun _ _ => rfl⟩
    intro heq
    rw [heq] at hr
    cases hr
  getchar_input _ _ := rfl
  getchar_output _ _ := rfl
  getchar_result c _ := by
    have hlt : Library.answer c.input < UInt32.size := by
      cases c.input with
      | nil => decide
      | cons b rest => exact Nat.lt_trans b.toNat_lt (by decide)
    show (UInt64.ofNat (Library.answer c.input)).toNat % UInt32.size = _
    rw [UInt64.toNat_ofNat_of_lt' (Nat.lt_trans hlt (by decide)), Nat.mod_eq_of_lt hlt]

/-- A caller whose stack lies well above the tape and whose other registers are zero. -/
def Cpu.caller (input : List UInt8) : Cpu Unit where
  pc := 0
  regs r := if r = .rsp then 1048584 else 0
  zero := false
  memory _ := 0
  input := input
  output := []
  outside := ()

end X86

namespace Program

section File

variable (o : Options) (p : Program)

theorem code_calls :
    Draft.code o {} p.calls = Draft.code o {} p.spell ++
      ((Draft.after o {} p.spell).pending.lines ++ closing.map .instr) := by
  rw [p.calls_eq, Draft.code_append, Draft.code, Draft.code, List.append_nil]
  rfl

theorem getElem?_file_zero : (p.file o)[0]? = some (.label o.target.entryPoint) := rfl

/-- Behind the entry stand the opening, the code of the instructions and the closing. -/
theorem codeAt_file :
    CodeAt o (p.file o) 1 (opening.map .instr) ∧
      CodeAt o (p.file o) 7 (Draft.code o {} p.spell) ∧
      CodeAt o (p.file o) (7 + extent o (Draft.code o {} p.spell))
        ((Draft.after o {} p.spell).pending.lines ++ closing.map .instr) := by
  have hcode : CodeAt o (p.file o) 1 (p.codeLines o {}) :=
    File.at_of_append [.label o.target.entryPoint] _ [.zeroed o.target.tape cellCount]
  rw [codeLines, code_calls] at hcode
  obtain ⟨hopening, hcode⟩ := codeAt_append.mp hcode
  obtain ⟨hspell, hclosing⟩ := codeAt_append.mp hcode
  exact ⟨hopening, hspell, hclosing⟩

theorem zeroed_mem_file : .zeroed o.target.tape cellCount ∈ p.file o := by
  unfold file
  simp

end File

section Execution

variable {α : Type} {o : Options} {p : Program} {lib : Library α} {start : Cpu α}
variable (hlawful : lib.Lawful (p.file o) (start.regs .rsp - File.savedBytes))
variable (hentered : (p.file o).EnteredAt lib o.target.entryPoint start)
include hlawful hentered

theorem linked_file : Linked o.target lib (p.file o) start :=
  ⟨hlawful, p.zeroed_mem_file o, p.nodup_labels_file o, hentered.apart⟩

omit hlawful in
theorem start_pc : start.pc = 0 := by
  have htarget := File.target?_of_label (p.nodup_labels_file o) (p.getElem?_file_zero o)
  exact Option.some.inj (hentered.pc.symm.trans htarget)

variable (houtput : start.output = [])
include houtput

theorem reaches_spell :
    lib.Reaches (p.file o) start 7
      (Holds o lib start .none { feed := .ofBytes start.input, eof := o.eof }) := by
  have hpc := start_pc hentered
  obtain ⟨hopening, -⟩ := p.codeAt_file o
  have hentry := p.getElem?_file_zero o
  have hreaches := reaches_opening (linked_file hlawful hentered) (hpc ▸ hentry)
    (by rw [hpc]; exact hopening) hentered.zeroed houtput
  rw [hpc] at hreaches
  exact hreaches.trans fun c hc h => .refl hc h.holds

/-- Where the execution completes, the processor comes to the closing and stands for the machine
that the execution leaves. -/
theorem reaches_closing {m' : Machine}
    (hx : Executes p { feed := .ofBytes start.input, eof := o.eof } (.completes m')) :
    ∃ n c, lib.run (p.file o) n start = some c ∧ Agrees o lib start m' c ∧
      CodeAt o (p.file o) c.pc (closing.map .instr) := by
  have hl := linked_file hlawful hentered
  obtain ⟨-, hspell, hend⟩ := p.codeAt_file o
  obtain ⟨hflush, hclosing⟩ := codeAt_append.mp hend
  have hreaches : lib.Reaches (p.file o) start (7 + extent o (Draft.code o {} p.spell) +
      extent o (Draft.after o {} p.spell).pending.lines) (Agrees o lib start m') := by
    refine (reaches_spell hlawful hentered houtput).trans fun c₁ hpc₁ h₁ => ?_
    rw [← hpc₁] at hspell
    refine (reaches_of_executes hl hx m' {} c₁ rfl hspell h₁).trans fun c₂ hpc₂ h₂ => ?_
    rw [hpc₁] at hpc₂
    rw [← hpc₂] at hflush ⊢
    exact reaches_flush hl hflush h₂
  obtain ⟨n, c, hrun, hpc, hagrees⟩ := hreaches
  rw [← hpc] at hclosing
  exact ⟨n, c, hrun, hagrees, hclosing⟩

/-- Where the processor returns, the execution completes. -/
theorem executes_of_returns {n : Nat} {c : Cpu α} (hrun : lib.run (p.file o) n start = some c)
    (hreturns : (p.file o).Returns c) :
    ∃ m', Executes p { feed := .ofBytes start.input, eof := o.eof } (.completes m') := by
  have hends : lib.Ends (p.file o) n start := ⟨c, hrun, hreturns⟩
  obtain ⟨-, hspell, -⟩ := p.codeAt_file o
  obtain ⟨n₁, c₁, -, hpc₁, h₁, hends₁⟩ := hends.reaches (reaches_spell hlawful hentered houtput)
  rw [← hpc₁] at hspell
  exact executes_of_ends (linked_file hlawful hentered) (n₁ + 1) p {} _ c₁ n₁ (by omega)
    (Machine.untroubled_ofBytes .blank start.input o.eof) hspell h₁ hends₁

/-- Where the execution completes, the processor returns, four steps after the closing began. -/
theorem returns_of_executes {m' : Machine}
    (hx : Executes p { feed := .ofBytes start.input, eof := o.eof } (.completes m')) :
    ∃ k c₁ c, lib.run (p.file o) k start = some c₁ ∧ Agrees o lib start m' c₁ ∧
      (p.file o).At c₁.pc epilogue ∧ lib.run (p.file o) 4 c₁ = some c ∧ (p.file o).Returns c ∧
      (∀ r, r.isPreserved = true → c.regs r = start.regs r) ∧ c.memory = c₁.memory ∧
      c.output = c₁.output := by
  obtain ⟨k, c₁, hrun, hagrees, hclosing⟩ := reaches_closing hlawful hentered houtput hx
  obtain ⟨c, hrun', hreturns, hregs, -, hmemory, hout⟩ := run_closing hagrees.framed hclosing
  exact ⟨k, c₁, c, hrun, hagrees, hclosing, hrun', hreturns, hregs, hmemory, hout⟩

end Execution

theorem size_of_zeroed_mem_file {o : Options} {p : Program} {symbol : String} {size : Nat}
    (h : .zeroed symbol size ∈ p.file o) : size = cellCount := by
  rcases List.mem_cons.mp h with h | h
  · cases h
  rcases List.mem_append.mp h with h | h
  · obtain ⟨l, hl, hs⟩ := List.mem_flatMap.mp h
    have hcode := isCode_of_mem_codeLines hl
    cases l <;> simp [Line.statements, Line.isCode] at hs hcode
  · cases List.mem_singleton.mp h
    rfl

theorem enteredAt_plain (o : Options) (p : Program) (input : List UInt8) :
    (p.file o).EnteredAt Library.plain o.target.entryPoint (Cpu.caller input) where
  pc := File.target?_of_label (p.nodup_labels_file o) (p.getElem?_file_zero o)
  zeroed _ _ := rfl
  apart k hk := by
    rintro ⟨symbol, size, j, hmem, hj, heq⟩
    rw [size_of_zeroed_mem_file hmem] at hj
    have hk' : k.toNat < 24 := UInt64.lt_iff_toNat_lt.mp hk
    have hj' : j < 65536 := hj
    have hvalue := congrArg UInt64.toNat heq
    replace hvalue : ((1048584 - 24 : UInt64) + k).toNat = (0 + UInt64.ofNat j).toNat := hvalue
    rw [UInt64.zero_add, UInt64.toNat_add,
      UInt64.toNat_ofNat_of_lt' (Nat.lt_trans hj' (by decide))] at hvalue
    have hsp : (1048584 - 24 : UInt64).toNat = 1048560 := by decide
    omega

/-- What a program is compiled to, read as assembly and executed, does what the run over the node
table does. The processor returns exactly if that run halts. Then it has written the same bytes,
and the reserved memory holds the cells. Register `r13` holds the head when the closing begins;
the closing gives it back to the caller. -/
theorem compiled_code_agrees_with_run (p : Program) (o : Options) :
    (∃ g, p.compile o {} = .ok (p.lineCount o {}) g ∧
      g.sink.accepted.toList = Sink.bytesOf (p.assembly o)) ∧
    File.ofText? (p.assembly o).toList = some (p.file o) ∧
    ∀ {α : Type} (lib : Library α) (start : Cpu α),
      lib.Lawful (p.file o) (start.regs .rsp - File.savedBytes) →
      (p.file o).EnteredAt lib o.target.entryPoint start → start.output = [] →
      let m : Machine := { feed := .ofBytes start.input, eof := o.eof }
      ((∃ fuel, ∀ r, p.tree.run fuel m ≠ .running r) ↔
        ∃ n c, lib.run (p.file o) n start = some c ∧ (p.file o).Returns c) ∧
      (∀ fuel, (∀ r, p.tree.run fuel m ≠ .running r) →
        ∃ m' steps, p.tree.run fuel m = .finished m' steps) ∧
      ∀ fuel m' steps n c, p.tree.run fuel m = .finished m' steps →
        lib.run (p.file o) n start = some c → (p.file o).Returns c →
        c.output = m'.sink.accepted.toList ∧
        (∀ i : UInt16, c.memory (lib.address o.target.tape + i.toUInt64) = m'.tape.get i) ∧
        c.regs .r13 = start.regs .r13 ∧
        ∃ k c₁, lib.run (p.file o) k start = some c₁ ∧ (p.file o).At c₁.pc epilogue ∧
          lib.run (p.file o) 4 c₁ = some c ∧ c₁.regs .r13 = m'.tape.head.toUInt64 := by
  refine ⟨p.compile_eq o, p.ofText?_assembly o, ?_⟩
  intro α lib start hlawful hentered houtput m
  have hm : m.Untroubled := Machine.untroubled_ofBytes .blank start.input o.eof
  refine ⟨⟨?_, ?_⟩, ?_, ?_⟩
  · rintro ⟨fuel, hover⟩
    obtain ⟨m', n, hx, -⟩ := run_tree_over hm hover
    obtain ⟨k, c₁, c, hrun, -, -, hrun', hreturns, -⟩ :=
      returns_of_executes hlawful hentered houtput hx
    exact ⟨k + 4, c, Library.run_trans hrun hrun', hreturns⟩
  · rintro ⟨n, c, hrun, hreturns⟩
    obtain ⟨m', hx⟩ := executes_of_returns hlawful hentered houtput hrun hreturns
    obtain ⟨fuel, steps, heq⟩ := run_tree_of_completes hm hx
    refine ⟨fuel, fun r hr => ?_⟩
    cases heq.symm.trans hr
  · intro fuel hover
    obtain ⟨m', steps, -, heq⟩ := run_tree_over hm hover
    exact ⟨m'.flushed, steps, heq⟩
  · intro fuel m' steps n c hfinished hrun hreturns
    obtain ⟨m₁, steps₁, hx, heq⟩ := run_tree_over hm fun r hr => by cases hfinished.symm.trans hr
    cases hfinished.symm.trans heq
    obtain ⟨k, c₁, c₂, hrun₁, hagrees, hclosing, hrun₂, hreturns₂, hregs, hmemory, hout⟩ :=
      returns_of_executes hlawful hentered houtput hx
    obtain rfl :=
      Library.returns_unique hrun hreturns (Library.run_trans hrun₁ hrun₂) hreturns₂
    refine ⟨hout.trans hagrees.output.symm, fun i => ?_, hregs .r13 rfl, k, c₁, hrun₁, hclosing,
      hrun₂, hagrees.head⟩
    rw [hmemory]
    exact hagrees.cells i

/-- A loop that copies its input, compiled and executed on two bytes. -/
theorem compiled_code_of_echo_loop :
    let p : Program := .op .input ⟨1, 1, 0⟩ (.loop ⟨1, 2, 1⟩
      (.op .output ⟨1, 3, 2⟩ (.op .input ⟨1, 4, 3⟩ .nil)) .nil)
    let o : Options := { target := .darwin, optLevel := .O1, eof := .zero }
    let start := Cpu.caller [104, 105]
    Library.plain.Lawful (p.file o) (start.regs .rsp - File.savedBytes) ∧
    (p.file o).EnteredAt Library.plain "_main" start ∧ start.output = [] ∧
    ∃ n c, Library.plain.run (p.file o) n start = some c ∧ (p.file o).Returns c ∧
      c.output = [104, 105] := by
  intro p o start
  have hlawful := Library.lawful_plain (p.file o) (start.regs .rsp - File.savedBytes)
  have hentered := p.enteredAt_plain o [104, 105]
  let m : Machine := { feed := .ofBytes [104, 105] }
  let m₁ : Machine := { m with tape := m.tape.setCurrent 104, feed := .ofBytes [105] }
  let m₂ : Machine := { m₁ with sink := m₁.sink.take [m₁.tape.current] }
  let m₃ : Machine := { m₂ with tape := m₂.tape.setCurrent 105, feed := .ofBytes [] }
  let m₄ : Machine := { m₃ with sink := m₃.sink.take [m₃.tape.current] }
  let m₅ : Machine := { m₄ with tape := m₄.tape.setCurrent 0 }
  have hcell₁ : m₁.tape.current = 104 := Tape.current_setCurrent _ _
  have hcell₃ : m₃.tape.current = 105 := Tape.current_setCurrent _ _
  have hcell₅ : m₅.tape.current = 0 := Tape.current_setCurrent _ _
  have hread₁ : Effect .input m m₁ := Machine.perform_eq_ok.mp rfl
  have hread₃ : Effect .input m₂ m₃ := Machine.perform_eq_ok.mp rfl
  have hread₅ : Effect .input m₄ m₅ := Machine.perform_eq_ok.mp rfl
  have hbody₁ : Executes (.op .output ⟨1, 3, 2⟩ (.op .input ⟨1, 4, 3⟩ .nil)) m₁ (.completes m₃) :=
    .op (.output nofun) (.op hread₃ .nil)
  have hbody₃ : Executes (.op .output ⟨1, 3, 2⟩ (.op .input ⟨1, 4, 3⟩ .nil)) m₃ (.completes m₅) :=
    .op (.output nofun) (.op hread₅ .nil)
  have hx : Executes p m (.completes m₅) :=
    .op hread₁ (.loopTurn (by rw [hcell₁]; decide) hbody₁
      (.loopTurn (by rw [hcell₃]; decide) hbody₃ (.loopDone hcell₅ .nil)))
  have hm : m.Untroubled := Machine.untroubled_ofBytes .blank [104, 105] .zero
  obtain ⟨fuel, steps, hfinished⟩ := run_tree_of_completes hm hx
  obtain ⟨-, -, hexecution⟩ := compiled_code_agrees_with_run p o
  obtain ⟨hhalt, -, hsame⟩ := hexecution Library.plain start hlawful hentered rfl
  obtain ⟨n, c, hrun, hreturns⟩ := hhalt.mp ⟨fuel, fun r hr => by cases hfinished.symm.trans hr⟩
  obtain ⟨houtput, -⟩ := hsame fuel _ steps n c hfinished hrun hreturns
  refine ⟨hlawful, hentered, rfl, n, c, hrun, hreturns, houtput.trans ?_⟩
  show [m₁.tape.current, m₃.tape.current] = _
  rw [hcell₁, hcell₃]

/-- At the return itself `r13` need not hold the head: after a single move to the right the head is
on cell 1, and `r13` is zero again as in the caller. -/
theorem head_register_differs_at_return :
    ¬ ∀ (p : Program) (o : Options) (lib : Library Unit) (start : Cpu Unit),
      lib.Lawful (p.file o) (start.regs .rsp - File.savedBytes) →
      (p.file o).EnteredAt lib o.target.entryPoint start → start.output = [] →
      ∀ fuel m' steps n c,
        p.tree.run fuel { feed := .ofBytes start.input, eof := o.eof } = .finished m' steps →
        lib.run (p.file o) n start = some c → (p.file o).Returns c →
        c.regs .r13 = m'.tape.head.toUInt64 := by
  intro h
  let p : Program := .op .moveRight ⟨1, 1, 0⟩ .nil
  let o : Options := { target := .linux, optLevel := .O0, eof := .zero }
  let m : Machine := { feed := .ofBytes [] }
  let m' : Machine := { m with tape := m.tape.moveRight }
  have hlawful := Library.lawful_plain (p.file o) ((Cpu.caller []).regs .rsp - File.savedBytes)
  have hentered := p.enteredAt_plain o []
  have hmove : Effect .moveRight m m' := Machine.perform_eq_ok.mp rfl
  have hx : Executes p m (.completes m') := .op hmove .nil
  have hm : m.Untroubled := Machine.untroubled_ofBytes .blank [] .zero
  obtain ⟨fuel, steps, hfinished⟩ := run_tree_of_completes hm hx
  obtain ⟨k, c₁, c, hrun, -, -, hrun', hreturns, hregs, -⟩ :=
    returns_of_executes hlawful hentered rfl hx
  have hhead := h p o Library.plain (Cpu.caller []) hlawful hentered rfl fuel _ steps (k + 4) c
    hfinished (Library.run_trans hrun hrun') hreturns
  have hzero : c.regs .r13 = 0 := hregs .r13 rfl
  rw [hzero] at hhead
  exact absurd hhead (by decide)

end Program

end TapeLang

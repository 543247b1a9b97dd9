import Mathlib.Order.WellFounded
import TapeLang.World

/-!
Requests that fail before anything is done. What can be wrong with a request is stated fault by
fault, with no regard to the others. A faulty request is answered with the fault that comes first
in the order of the checks, and the world stays as it was. Without a fault the work begins, and
its errors are others.
-/
namespace TapeLang

open CommandLine

namespace Error

/-- The place of an error in the order of the checks. The errors of the work that comes after them
share the last place. -/
def rank : Error → Nat
  | missingInput => 0
  | invalidInput _ _ => 1
  | missingTarget => 2
  | read _ _ => 3
  | bracket _ | positionLimit => 4
  | _ => 5

/-- The error is found by a check, before the work begins. -/
def Early (e : Error) : Prop := e.rank < 5

theorem rank_ofSource (e : SourceError) : (ofSource e).rank = 4 := by
  cases e <;> rfl

/-- What can go wrong with the work itself. -/
def OfWork (e : Error) : Prop := e.rank = 5 ∧ e ≠ treeWithTarget

theorem OfWork.not_early {e : Error} (h : e.OfWork) : ¬ e.Early := by
  have hrank := h.1
  unfold Early
  omega

theorem ofWork_output (path cause : String) : (output path cause).OfWork :=
  ⟨rfl, Error.noConfusion⟩

theorem ofWork_assembler (cause : String) : (assembler cause).OfWork := ⟨rfl, Error.noConfusion⟩

end Error

namespace World

/-- What can be wrong with a request before anything is done. There may be several faults at
once. -/
inductive Fault (w : World) (hostTarget : Option Target) (r : Request) : Error → Prop
  | missingInput (h : r.input = none) : Fault w hostTarget r .missingInput
  | invalidInput {path : String} {fault : InputFault} (hinput : r.input = some path)
      (h : InputFault.check? path (w.fileKind path) = some fault) :
      Fault w hostTarget r (.invalidInput path fault.reason)
  | missingTarget (hrun : r.run = false) (hproduct : r.product ≠ .tree) (h : r.target = none)
      (hhost : hostTarget = none) : Fault w hostTarget r .missingTarget
  | unreadable {path cause : String} (hinput : r.input = some path)
      (h : w.readFile path = .error cause) : Fault w hostTarget r (.read path cause)
  | structural {path : String} {src : Source} {e : SourceError} (hinput : r.input = some path)
      (hread : w.readFile path = .ok src) (h : src.program = .error e) :
      Fault w hostTarget r (.ofSource e)

/-- The request passes the first `n` checks. -/
def Passes (w : World) (hostTarget : Option Target) (r : Request) (n : Nat) : Prop :=
  ∀ e, w.Fault hostTarget r e → n ≤ e.rank

/-- A fault of the request that no other fault comes before. -/
structure FirstFault (w : World) (hostTarget : Option Target) (r : Request) (e : Error) : Prop where
  fault : w.Fault hostTarget r e
  passes : w.Passes hostTarget r e.rank

variable {w : World} {hostTarget : Option Target} {r : Request} {e : Error} {path : String}
  {n : Nat}

theorem Fault.early (h : w.Fault hostTarget r e) : e.Early := by
  unfold Error.Early
  cases h with
  | structural _ _ _ =>
    rw [Error.rank_ofSource]
    omega
  | _ => simp [Error.rank]

theorem Fault.needs_target (h : w.Fault hostTarget r .missingTarget) :
    ¬ (r.run ∨ r.product = .tree) := by
  generalize he : Error.missingTarget = e at h
  cases h with
  | missingTarget hrun hproduct _ _ => simp [hrun, hproduct]
  | structural _ _ _ =>
    have hrank := congrArg Error.rank he
    rw [Error.rank_ofSource] at hrank
    cases hrank
  | _ => cases he

theorem Fault.exists_firstFault (h : w.Fault hostTarget r e) :
    ∃ e, w.FirstFault hostTarget r e := by
  obtain ⟨e₀, hfault, hmin⟩ := (measure Error.rank).wf.has_min {e | w.Fault hostTarget r e} ⟨e, h⟩
  exact ⟨e₀, hfault, fun e' h' => Nat.le_of_not_lt (hmin e' h')⟩

theorem Passes.mono {m : Nat} (h : w.Passes hostTarget r n) (hm : m ≤ n) :
    w.Passes hostTarget r m :=
  fun e he => Nat.le_trans hm (h e he)

theorem Passes.input (h : w.Passes hostTarget r 1) : ∃ path, r.input = some path := by
  cases hinput : r.input with
  | none => exact absurd (h _ (.missingInput hinput)) (by decide)
  | some path => exact ⟨path, rfl⟩

theorem Passes.check (h : w.Passes hostTarget r 2) (hinput : r.input = some path) :
    InputFault.check? path (w.fileKind path) = none := by
  cases hcheck : InputFault.check? path (w.fileKind path) with
  | none => rfl
  | some fault =>
    have hrank : 2 ≤ 1 := h _ (.invalidInput hinput hcheck)
    omega

theorem Passes.target (h : w.Passes hostTarget r 3) :
    ∃ target, Compiler.targetFor r hostTarget = .ok target := by
  unfold Compiler.targetFor
  by_cases hneeded : r.run ∨ r.product = .tree
  · exact ⟨none, if_pos hneeded⟩
  · rw [if_neg hneeded, Compiler.resolveTarget]
    cases htarget : r.target.or hostTarget with
    | some t => exact ⟨some t, rfl⟩
    | none =>
      obtain ⟨hrun, hproduct⟩ := not_or.mp hneeded
      obtain ⟨hnone, hhost⟩ := Option.or_eq_none_iff.mp htarget
      have hrank : 3 ≤ 2 := h _ (.missingTarget (by simpa using hrun) hproduct hnone hhost)
      omega

theorem Passes.source (h : w.Passes hostTarget r 4) (hinput : r.input = some path) :
    ∃ src, w.readFile path = .ok src := by
  cases hread : w.readFile path with
  | ok src => exact ⟨src, rfl⟩
  | error cause =>
    have hrank : 4 ≤ 3 := h _ (.unreadable hinput hread)
    omega

theorem Passes.program (h : w.Passes hostTarget r 5) {src : Source} (hinput : r.input = some path)
    (hread : w.readFile path = .ok src) : ∃ p, src.program = .ok p := by
  cases hp : src.program with
  | ok p => exact ⟨p, rfl⟩
  | error e =>
    have hrank := h _ (.structural hinput hread hp)
    rw [Error.rank_ofSource] at hrank
    omega

end World

namespace Compiler

variable {link : Linker Acting} {fuel : Nat} {w w' : World} {hostTarget : Option Target}
  {r : Request} {e : Error} {path : String} {target : Option Target} {p : Program}

theorem targetFor_of_unneeded (h : r.run ∨ r.product = .tree) : targetFor r hostTarget = .ok none :=
  if_pos h

theorem product_of_targetFor {t : Target} (h : targetFor r hostTarget = .ok (some t)) :
    r.product ≠ .tree := by
  intro hproduct
  rw [targetFor_of_unneeded (.inr hproduct)] at h
  cases h

/-! ### The work -/

theorem assembly_error {o : Options} (h : assembly o p = .error e) : e.OfWork := by
  unfold assembly at h
  split at h
  · cases h
  · cases h
    exact Error.ofWork_assembler _
  · cases h
    exact Error.ofWork_assembler _

/-- An action that follows another starts with the answer and the world that the other left. -/
theorem exists_of_bind {α β : Type} {x : Acting α} {f : α → Acting β} {y : β × World}
    (h : (x >>= f) w = some y) : ∃ a w₁, x w = some (a, w₁) ∧ f a w₁ = some y := by
  obtain ⟨⟨a, w₁⟩, hx, hf⟩ := Option.bind_eq_some_iff.mp h
  exact ⟨a, w₁, hx, hf⟩

theorem emitTree_error {output : Option String}
    (h : emitTree (World.host link fuel) output p w = some (.error e, w')) : e.OfWork := by
  unfold emitTree at h
  cases output with
  | none =>
    obtain ⟨result, w₁, -, hreturn⟩ := exists_of_bind h
    cases result with
    | ok _ => cases hreturn
    | error _ =>
      cases hreturn
      exact Error.ofWork_output _ _
  | some path =>
    obtain ⟨result, w₁, -, hreturn⟩ := exists_of_bind h
    split at hreturn
    · cases hreturn
    · cases hreturn
      exact Error.ofWork_output _ _
    · cases hreturn
      exact Error.ofWork_output _ _

theorem emitAssembly_error {text : Array UInt8}
    (h : emitAssembly (World.host link fuel) path text w = some (.error e, w')) : e.OfWork := by
  unfold emitAssembly at h
  obtain ⟨result, w₁, -, hreturn⟩ := exists_of_bind h
  split at hreturn
  · cases hreturn
  · cases hreturn
    exact Error.ofWork_output _ _
  · cases hreturn
    exact Error.ofWork_assembler _

theorem emitExecutable_error {cc : String} {level : OptLevel} {text : Array UInt8}
    (h : emitExecutable (World.host link fuel) cc level path text w = some (.error e, w')) :
    e.OfWork := by
  unfold emitExecutable at h
  obtain ⟨result, w₁, -, hreturn⟩ := exists_of_bind h
  split at hreturn
  · rename_i status
    cases hstatus : status.isSuccess with
    | true =>
      rw [hstatus] at hreturn
      cases hreturn
    | false =>
      rw [hstatus] at hreturn
      cases hreturn
      exact ⟨rfl, Error.noConfusion⟩
  · cases hreturn
    exact ⟨rfl, Error.noConfusion⟩
  · cases hreturn
    exact ⟨rfl, Error.noConfusion⟩
  · cases hreturn
    exact Error.ofWork_assembler _

/-- A target is chosen for no dump, so the dump is never asked for with one. -/
theorem produce_error (htarget : targetFor r hostTarget = .ok target)
    (h : produce (World.host link fuel) r path target p w = some (.error e, w')) : e.OfWork := by
  unfold produce at h
  cases target with
  | none => exact emitTree_error h
  | some t =>
    have hproduct := product_of_targetFor htarget
    cases htext : assembly { target := t, optLevel := r.optLevel, eof := r.eof } p with
    | error cause =>
      have hcause := assembly_error htext
      cases hkind : r.product with
      | tree => exact absurd hkind hproduct
      | asm | exe =>
        simp only [htext] at h
        cases h
        exact hcause
    | ok text =>
      cases hkind : r.product with
      | tree => exact absurd hkind hproduct
      | asm =>
        simp only [hkind, htext] at h
        exact emitAssembly_error h
      | exe =>
        simp only [hkind, htext] at h
        exact emitExecutable_error h

/-- The work that is left once a source has been read. -/
def work (link : Linker Acting) (fuel : Nat) (r : Request) (path : String) (target : Option Target)
    (p : Program) : Acting (Except Error Unit) :=
  if r.run then return (← (World.host link fuel).interpret p r.eof).mapError .runtime
  else produce (World.host link fuel) r path target p

theorem work_error (htarget : targetFor r hostTarget = .ok target)
    (h : work link fuel r path target p w = some (.error e, w')) : e.OfWork := by
  unfold work at h
  by_cases hrun : r.run = true
  · rw [if_pos hrun] at h
    obtain ⟨result, w₁, -, hreturn⟩ := exists_of_bind h
    cases result with
    | ok _ => cases hreturn
    | error _ =>
      cases hreturn
      exact ⟨rfl, Error.noConfusion⟩
  · rw [if_neg hrun] at h
    exact produce_error htarget h

/-! ### The checks -/

theorem execute_of_input (h : r.input = some path) :
    execute (World.host link fuel) hostTarget r w =
      (match InputFault.check? path (w.fileKind path) with
        | some fault => return .error (.invalidInput path fault.reason)
        | none =>
          match targetFor r hostTarget with
          | .error e => return .error e
          | .ok target => build (World.host link fuel) r path target :
        Acting (Except Error Unit)) w := by
  rw [execute, h]
  rfl

theorem build_eq :
    build (World.host link fuel) r path target w =
      (match w.readFile path with
        | .error cause => return .error (.read path cause)
        | .ok src =>
          match src.program with
          | .error e => return .error (.ofSource e)
          | .ok p => work link fuel r path target p :
        Acting (Except Error Unit)) w :=
  rfl

theorem build_of_source {src : Source} (hread : w.readFile path = .ok src) :
    build (World.host link fuel) r path target w =
      (match src.program with
        | .error e => return .error (.ofSource e)
        | .ok p => work link fuel r path target p :
        Acting (Except Error Unit)) w := by
  rw [build_eq, hread]

theorem execute_eq_build (h : w.Passes hostTarget r 3) (hinput : r.input = some path) :
    ∃ target, targetFor r hostTarget = .ok target ∧
      execute (World.host link fuel) hostTarget r w =
        build (World.host link fuel) r path target w := by
  obtain ⟨target, htarget⟩ := h.target
  refine ⟨target, htarget, ?_⟩
  rw [execute_of_input hinput, (h.mono (by omega)).check hinput, htarget]

/-- The first fault of a request is the answer to it, and nothing else happens. -/
theorem execute_of_firstFault (h : w.FirstFault hostTarget r e) :
    execute (World.host link fuel) hostTarget r w = some (.error e, w) := by
  obtain ⟨hfault, hpasses⟩ := h
  cases hfault with
  | missingInput hinput =>
    rw [execute, hinput]
    rfl
  | invalidInput hinput hcheck =>
    rw [execute_of_input hinput, hcheck]
    rfl
  | missingTarget hrun hproduct htarget hhost =>
    obtain ⟨path, hinput⟩ := (hpasses.mono (Nat.le_succ 1)).input
    have hneeded : ¬ (r.run ∨ r.product = .tree) := by simp [hrun, hproduct]
    have hmissing : targetFor r hostTarget = .error .missingTarget := by
      rw [targetFor, if_neg hneeded, htarget, hhost]
      rfl
    rw [execute_of_input hinput, hpasses.check hinput, hmissing]
    rfl
  | unreadable hinput hread =>
    obtain ⟨target, -, hbuild⟩ := execute_eq_build hpasses hinput
    rw [hbuild, build_eq, hread]
    rfl
  | structural hinput hread hprogram =>
    rw [Error.rank_ofSource] at hpasses
    obtain ⟨target, -, hbuild⟩ := execute_eq_build (hpasses.mono (by omega)) hinput
    rw [hbuild, build_of_source hread, hprogram]
    rfl

theorem execute_eq_work (h : ∀ e, ¬ w.Fault hostTarget r e) (hinput : r.input = some path) :
    ∃ target p, targetFor r hostTarget = .ok target ∧
      execute (World.host link fuel) hostTarget r w = work link fuel r path target p w := by
  have hpasses : w.Passes hostTarget r 5 := fun e he => absurd he (h e)
  obtain ⟨target, htarget, hbuild⟩ := execute_eq_build (hpasses.mono (by omega)) hinput
  obtain ⟨src, hread⟩ := (hpasses.mono (by omega)).source hinput
  obtain ⟨p, hprogram⟩ := hpasses.program hinput hread
  refine ⟨target, p, htarget, ?_⟩
  rw [hbuild, build_of_source hread, hprogram]

theorem execute_of_no_fault (h : ∀ e, ¬ w.Fault hostTarget r e) :
    ∃ path target p, targetFor r hostTarget = .ok target ∧
      execute (World.host link fuel) hostTarget r w = work link fuel r path target p w := by
  have hpasses : w.Passes hostTarget r 1 := fun e he => absurd he (h e)
  obtain ⟨path, hinput⟩ := hpasses.input
  exact ⟨path, execute_eq_work h hinput⟩

/-- Every error is the first fault of the request, with the world as it was, or one of the work. -/
theorem execute_error
    (h : execute (World.host link fuel) hostTarget r w = some (.error e, w')) :
    w' = w ∧ w.FirstFault hostTarget r e ∨ e.OfWork := by
  by_cases hfault : ∃ e, w.Fault hostTarget r e
  · obtain ⟨e₁, he₁⟩ := hfault
    obtain ⟨e₀, hfirst⟩ := he₁.exists_firstFault
    rw [execute_of_firstFault hfirst] at h
    cases h
    exact .inl ⟨rfl, hfirst⟩
  · obtain ⟨path, target, p, htarget, hwork⟩ := execute_of_no_fault (not_exists.mp hfault)
    rw [hwork] at h
    exact .inr (work_error htarget h)

theorem execute_of_unneeded (h : r.run ∨ r.product = .tree) (hinput : r.input = some path) :
    execute (World.host link fuel) hostTarget r w =
      (match InputFault.check? path (w.fileKind path) with
        | some fault => return .error (.invalidInput path fault.reason)
        | none => build (World.host link fuel) r path none :
        Acting (Except Error Unit)) w := by
  rw [execute_of_input hinput, targetFor_of_unneeded h]

/-- Where no target is needed, none is looked at. -/
theorem execute_ignores_target (h : r.run ∨ r.product = .tree)
    (hostTarget' requested : Option Target) :
    execute (World.host link fuel) hostTarget' { r with target := requested } w =
      execute (World.host link fuel) hostTarget r w := by
  rcases Option.eq_none_or_eq_some r.input with hinput | ⟨path, hinput⟩
  · simp only [execute, hinput]
  · rw [execute_of_unneeded h hinput]
    exact execute_of_unneeded h hinput

/-- An error of the checks is returned exactly if it is the first fault of the request, and the
world is then as it was: no file, no output and no input has been touched, and the linker, which
may do anything, has not been started. Runs and dumps need no target, and a dump is never asked for
with one. -/
theorem early_errors_leave_no_trace (link : Linker Acting) (fuel : Nat)
    (hostTarget : Option Target) (r : Request) (w : World) :
    (∀ e w', e.Early →
      (execute (World.host link fuel) hostTarget r w = some (.error e, w') ↔
        w' = w ∧ w.Fault hostTarget r e ∧
          ∀ e', w.Fault hostTarget r e' → e.rank ≤ e'.rank)) ∧
    (r.run ∨ r.product = .tree →
      (∀ w', execute (World.host link fuel) hostTarget r w ≠ some (.error .missingTarget, w')) ∧
      ∀ hostTarget' requested,
        execute (World.host link fuel) hostTarget' { r with target := requested } w =
          execute (World.host link fuel) hostTarget r w) ∧
    ∀ w', execute (World.host link fuel) hostTarget r w ≠ some (.error .treeWithTarget, w') := by
  refine ⟨?_, ?_, ?_⟩
  · intro e w' hearly
    constructor
    · intro h
      rcases execute_error h with ⟨hw, hfirst⟩ | hwork
      · exact ⟨hw, hfirst.fault, hfirst.passes⟩
      · exact absurd hearly hwork.not_early
    · rintro ⟨rfl, hfault, hpasses⟩
      exact execute_of_firstFault ⟨hfault, hpasses⟩
  · intro hunneeded
    refine ⟨?_, execute_ignores_target hunneeded⟩
    intro w' h
    rcases execute_error h with ⟨-, hfirst⟩ | hwork
    · exact hfirst.fault.needs_target hunneeded
    · exact absurd hwork.1 (by decide)
  · intro w' h
    rcases execute_error h with ⟨-, hfirst⟩ | hwork
    · exact absurd hfirst.fault.early (Nat.lt_irrefl 5)
    · exact hwork.2 rfl

/-- A file that may not be read, to be compiled for a host without a target. The target is missed
first. A run needs none, so it gets as far as the file. -/
theorem faults_of_locked_file :
    let link : Linker Acting := fun _ _ _ _ w => some (.notFound, w)
    let w : World := { files := { entries := [(["a.bf"], .locked #[43])] } }
    let r : Request := { input := some "a.bf" }
    let denied := Error.read "a.bf" "Permission denied (os error 13)"
    w.Fault none r .missingTarget ∧ w.Fault none r denied ∧
    execute (World.host link 0) none r w = some (.error .missingTarget, w) ∧
    execute (World.host link 0) none { r with run := true } w = some (.error denied, w) ∧
    execute (World.host link 0) (some .linux) { r with run := true, target := some .darwin } w =
      some (.error denied, w) := by
  intro link w r denied
  have hkind : InputFault.check? "a.bf" (w.fileKind "a.bf") = none := by decide
  have hread : w.readFile "a.bf" = .error "Permission denied (os error 13)" := rfl
  have hlater {r' : Request} {e : Error} (hinput : r'.input = some "a.bf")
      (h : w.Fault none r' e) : e = .missingTarget ∨ 3 ≤ e.rank := by
    cases h with
    | missingInput h => cases hinput.symm.trans h
    | invalidInput hpath h =>
      cases hinput.symm.trans hpath
      cases hkind.symm.trans h
    | missingTarget _ _ _ _ => exact .inl rfl
    | unreadable _ _ => exact .inr (Nat.le_refl 3)
    | structural _ _ _ => exact .inr (Error.rank_ofSource _ ▸ Nat.le_succ 3)
  have htarget : w.Fault none r .missingTarget := .missingTarget rfl (by decide) rfl rfl
  have hrun : execute (World.host link 0) none { r with run := true } w =
      some (.error denied, w) := by
    refine ((early_errors_leave_no_trace link 0 none { r with run := true } w).1 denied w
      (Nat.lt_succ_of_lt (Nat.lt_succ_self 3))).mpr ⟨rfl, .unreadable rfl hread, ?_⟩
    intro e he
    rcases hlater rfl he with rfl | hrank
    · exact absurd (.inl rfl) he.needs_target
    · exact hrank
  refine ⟨htarget, .unreadable rfl hread, ?_, hrun, ?_⟩
  · refine ((early_errors_leave_no_trace link 0 none r w).1 .missingTarget w htarget.early).mpr
      ⟨rfl, htarget, ?_⟩
    intro e he
    rcases hlater rfl he with rfl | hrank
    · exact Nat.le_refl 2
    · exact Nat.le_of_succ_le hrank
  · rw [← hrun]
    exact ((early_errors_leave_no_trace link 0 none { r with run := true } w).2.1 (.inl rfl)).2
      (some .linux) (some .darwin)

end Compiler

end TapeLang

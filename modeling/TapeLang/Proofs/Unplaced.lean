import TapeLang.Proofs.Emission
import TapeLang.Proofs.Interpretation

/-!
Programs without their places. Where an instruction stands in its source decides about the places
in the node table and in the remarks of the assembly, and about nothing else. So programs with the
same symbols have the same nodes, run alike and are compiled to the same instructions.
-/
namespace TapeLang

open Assembly

namespace Program

/-- The program with all its instructions put at the start. -/
def unplaced : Program → Program
  | nil => nil
  | op o _ rest => .op o .start rest.unplaced
  | loop _ body rest => .loop .start body.unplaced rest.unplaced

theorem unplaced_eq_of_instrs_eq {p q : Program} (h : p.instrs = q.instrs) :
    p.unplaced = q.unplaced := by
  induction p generalizing q with
  | nil =>
    cases q with
    | nil => rfl
    | op => cases h
    | loop => cases h
  | op o pos rest ih =>
    cases q with
    | nil => cases h
    | op o' pos' rest' =>
      obtain ⟨hop, hrest⟩ := List.cons.inj h
      rw [unplaced, unplaced, ih hrest, Grammar.Instr.op.inj hop]
    | loop => cases (List.cons.inj h).1
  | loop pos body rest ihbody ih =>
    cases q with
    | nil => cases h
    | op => cases (List.cons.inj h).1
    | loop pos' body' rest' =>
      obtain ⟨hloop, hrest⟩ := List.cons.inj h
      rw [unplaced, unplaced, ihbody (Grammar.Instr.loop.inj hloop), ih hrest]

/-- Programs that are spelled alike differ in their places only. -/
theorem unplaced_eq_of_symbols_eq {p q : Program} (h : p.symbols = q.symbols) :
    p.unplaced = q.unplaced :=
  unplaced_eq_of_instrs_eq (instrs_eq_of_symbols_eq h)

theorem unplaced_eq_relocated (p : Program) : p.unplaced = p.relocated fun _ => .start := by
  induction p with
  | nil => rfl
  | op o pos rest ih => rw [unplaced, relocated, ih]
  | loop pos body rest ihbody ih => rw [unplaced, relocated, ihbody, ih]

end Program

/-- The node without its place. -/
def Node.unplaced (n : Node) : Node := { n with pos := .start }

/-- The table without the places of its nodes. -/
def Tree.unplaced (t : Tree) : Tree := ⟨t.nodes.map Node.unplaced⟩

namespace Program

theorem tree_unplaced (p : Program) : p.unplaced.tree = p.tree.unplaced := by
  have hnodes : p.unplaced.tree.nodes = p.tree.nodes.map Node.unplaced := by
    rw [unplaced_eq_relocated]
    exact nodes_relocated rfl p
  exact congrArg Tree.mk hnodes

end Program

namespace Tree

theorem node?_unplaced (t : Tree) (id : Nat) :
    t.unplaced.node? id = (t.node? id).map Node.unplaced := by
  simp only [node?, unplaced, Array.getElem?_map]

theorem reach_unplaced (t : Tree) (child : Nat) (r : Traversal) :
    r.reach t.unplaced child = r.reach t child := by
  have hkind : (t.unplaced.node? child).map Node.kind = (t.node? child).map Node.kind := by
    rw [node?_unplaced]
    cases t.node? child <;> rfl
  simp only [Traversal.reach, hkind]

/-- A step over a table reads the kinds and the children of nodes. -/
theorem step_unplaced (t : Tree) (r : Traversal) : r.step t.unplaced = r.step t := by
  obtain ⟨frames, m, steps⟩ := r
  cases frames with
  | nil => rfl
  | cons frame outer =>
    simp only [Traversal.step, reach_unplaced, node?_unplaced]
    cases t.node? frame.node <;> rfl

theorem run_unplaced (t : Tree) (fuel : Nat) (m : Machine) :
    t.unplaced.run fuel m = t.run fuel m := by
  have hproceed (r : Traversal) : r.proceed t.unplaced fuel = r.proceed t fuel := by
    induction fuel generalizing r with
    | zero => rfl
    | succ fuel ih =>
      rw [Traversal.proceed, Traversal.proceed, step_unplaced]
      cases r.step t with
      | running r₁ => exact ih r₁
      | finished m₁ n => rfl
      | failed e m₁ => rfl
      | misplaced m₁ => rfl
  exact hproceed _

end Tree

namespace Program

/-- Programs that differ in their places only make the same moves. -/
theorem run_tree_eq_of_unplaced_eq {p q : Program} (h : p.unplaced = q.unplaced) (fuel : Nat)
    (m : Machine) : p.tree.run fuel m = q.tree.run fuel m := by
  rw [← Tree.run_unplaced, ← p.tree_unplaced, h, q.tree_unplaced, Tree.run_unplaced]

end Program

/-- The call without its place. -/
def Call.unplaced : Call → Call
  | op o _ => .op o .start
  | enterLoop _ => .enterLoop .start
  | exitLoop _ => .exitLoop .start
  | finish => .finish

/-- The line without the place that it may mention. -/
def Assembly.Line.unplaced : Line → Line
  | loopComment _ => .loopComment .start
  | l => l

namespace Draft

theorem map_unplaced_instrs (instrs : List Instr) :
    (instrs.map Line.instr).map Line.unplaced = instrs.map Line.instr := by
  rw [List.map_map]
  rfl

theorem map_unplaced_pending (u : Pending) : u.lines.map Line.unplaced = u.lines :=
  map_unplaced_instrs _

theorem map_unplaced_bumpLines (o : Options) (d : Draft) (u : Pending) :
    (d.bumpLines o u).map Line.unplaced = d.bumpLines o u := by
  obtain ⟨updates, -, hlines⟩ := d.bumpLines_eq o u
  rw [hlines, map_unplaced_instrs]

/-- What a call writes mentions the place of the call in a remark only. -/
theorem wrote_unplaced (o : Options) (d : Draft) (c : Call) :
    d.wrote o c.unplaced = (d.wrote o c).map Line.unplaced := by
  cases c with
  | op op pos =>
    cases op with
    | increment => exact (map_unplaced_bumpLines o d _).symm
    | decrement => exact (map_unplaced_bumpLines o d _).symm
    | moveLeft => exact (map_unplaced_bumpLines o d _).symm
    | moveRight => exact (map_unplaced_bumpLines o d _).symm
    | output =>
      rw [wrote, List.map_append, map_unplaced_pending]
      rfl
    | input =>
      have hinput : (inputLines d.nextInput o.eof).map Line.unplaced =
          inputLines d.nextInput o.eof := by
        cases o.eof <;> rfl
      rw [wrote, List.map_append, map_unplaced_pending, hinput]
      rfl
  | enterLoop pos =>
    rw [wrote, List.map_append, map_unplaced_pending]
    rfl
  | exitLoop pos =>
    have hexit : (exitLines d.loops).map Line.unplaced = exitLines d.loops := by
      cases d.loops <;> rfl
    rw [wrote, List.map_append, map_unplaced_pending, hexit]
    rfl
  | finish =>
    rw [wrote, List.map_append, map_unplaced_pending, map_unplaced_instrs]
    rfl

theorem next_unplaced (o : Options) (d : Draft) (c : Call) :
    d.next o c.unplaced = d.next o c := by
  cases c with
  | op op pos => cases op <;> rfl
  | enterLoop pos => rfl
  | exitLoop pos => rfl
  | finish => rfl

theorem code_unplaced (o : Options) (d : Draft) (cs : List Call) :
    d.code o (cs.map Call.unplaced) = (d.code o cs).map Line.unplaced := by
  induction cs generalizing d with
  | nil => rfl
  | cons c rest ih =>
    rw [List.map_cons, code, code, wrote_unplaced, next_unplaced, ih, List.map_append]

end Draft

namespace Program

theorem spell_unplaced (p : Program) : p.unplaced.spell = p.spell.map Call.unplaced := by
  induction p with
  | nil => rfl
  | op o pos rest ih =>
    rw [unplaced, spell, spell, ih]
    rfl
  | loop pos body rest ihbody ih =>
    rw [unplaced, spell, spell, ihbody, ih, List.map_cons, List.map_append]
    rfl

theorem codeLines_unplaced (o : Options) (d : Draft) (p : Program) :
    p.unplaced.codeLines o d = (p.codeLines o d).map Line.unplaced := by
  have hcalls : p.unplaced.calls = p.calls.map Call.unplaced := by
    rw [calls_eq, calls_eq, spell_unplaced, List.map_append]
    rfl
  rw [codeLines, codeLines, hcalls, Draft.code_unplaced, List.map_append,
    Draft.map_unplaced_instrs]

end Program

end TapeLang

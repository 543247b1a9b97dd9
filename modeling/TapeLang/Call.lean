import TapeLang.Program

/-!
What a program says to a back end. The calls list a program in reading order: one for each simple
instruction, one on entering and one on leaving a loop, and a last one when the program ends.
Leaving a loop is reported at the place of its opening bracket.
-/
namespace TapeLang

inductive Call where
  | op (o : Op) (pos : Position)
  | enterLoop (pos : Position)
  | exitLoop (pos : Position)
  | finish
  deriving DecidableEq, Repr, Inhabited

namespace Call

def name : Call → String
  | op .increment _ => "increment"
  | op .decrement _ => "decrement"
  | op .moveLeft _ => "move_left"
  | op .moveRight _ => "move_right"
  | op .output _ => "output"
  | op .input _ => "input"
  | enterLoop _ => "enter_loop"
  | exitLoop _ => "exit_loop"
  | finish => "finish"

def pos? : Call → Option Position
  | op _ pos => some pos
  | enterLoop pos => some pos
  | exitLoop pos => some pos
  | finish => none

def symbol? : Call → Option Symbol
  | op o _ => some (.op o)
  | enterLoop _ => some .opening
  | exitLoop _ => some .closing
  | finish => none

def describe (c : Call) : String :=
  match c.pos? with
  | some pos => c.name ++ " " ++ pos.display
  | none => c.name

end Call

namespace Program

/-- A bound on the calls still to come, which shows that the walk ends. -/
def weight : Program → Nat
  | nil => 0
  | op _ _ rest => rest.weight + 1
  | loop _ body rest => body.weight + rest.weight + 2

/-- Walk a program inside the given loops, innermost first. Each of these comes with what follows
it; `done` holds the calls made so far, the last first. -/
def walk (done : List Call) : Program → List (Position × Program) → List Call
  | .nil, [] => (.finish :: done).reverse
  | .nil, (pos, rest) :: outer => walk (.exitLoop pos :: done) rest outer
  | .op o pos rest, outer => walk (.op o pos :: done) rest outer
  | .loop pos body rest, outer => walk (.enterLoop pos :: done) body ((pos, rest) :: outer)
termination_by p outer => p.weight + outer.foldr (fun l n => l.2.weight + 1 + n) 0
decreasing_by all_goals simp only [weight, List.foldr_cons]; omega

def calls (p : Program) : List Call := walk [] p []

/-- The calls of a part of a program, by recursion on it. -/
def spell : Program → List Call
  | nil => []
  | op o pos rest => .op o pos :: rest.spell
  | loop pos body rest => .enterLoop pos :: (body.spell ++ .exitLoop pos :: rest.spell)

theorem walk_eq (done : List Call) (p : Program) (outer : List (Position × Program)) :
    walk done p outer = done.reverse ++ p.spell ++
      outer.flatMap (fun l => .exitLoop l.1 :: l.2.spell) ++ [.finish] := by
  fun_induction walk done p outer with
  | case1 => simp [spell]
  | case2 done pos rest outer ih => simp [ih, spell]
  | case3 done o pos rest outer ih => simp [ih, spell]
  | case4 done pos body rest outer ih => simp [ih, spell]

/-- The calls are the program spelled out, and then the finish. -/
theorem calls_eq (p : Program) : p.calls = p.spell ++ [.finish] := by
  simp [calls, walk_eq]

theorem spell_append (p q : Program) : (p ++ q).spell = p.spell ++ q.spell := by
  induction p with
  | nil => rfl
  | op o pos rest ih => simp [spell, ih]
  | loop pos body rest _ ih => simp [spell, ih]

theorem map_symbol?_spell (p : Program) : p.spell.map Call.symbol? = p.symbols.map some := by
  induction p with
  | nil => rfl
  | op o pos rest ih => simp [spell, symbols, Call.symbol?, ih]
  | loop pos body rest ihbody ih => simp [spell, symbols, Call.symbol?, ihbody, ih]

/-- How deep loops are nested now, and how deep they have been. -/
structure Nesting where
  depth : Nat := 0
  deepest : Nat := 0
  deriving DecidableEq, Repr, Inhabited

namespace Nesting

def visit (n : Nesting) : Call → Nesting
  | .enterLoop _ => ⟨n.depth + 1, max n.deepest (n.depth + 1)⟩
  | .exitLoop _ => { n with depth := n.depth - 1 }
  | _ => n

end Nesting

/-- How deep loops are nested at most. -/
def depth (p : Program) : Nat := (p.calls.foldl Nesting.visit {}).deepest

end Program

/-- Hand calls to a back end in order. The first failure ends the walk. -/
def translate {m : Type → Type} [Monad m] (backEnd : Call → m Unit) (p : Program) : m Unit :=
  p.calls.forM backEnd

end TapeLang

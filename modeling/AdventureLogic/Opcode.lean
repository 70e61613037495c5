/-!
# Opcodes of logic resources

Action commands and test commands have opcodes of their own, each with a name
and a number of arguments. The four bytes from `0xFC` up are no commands: they
mark the structure of the code. Most tests take a fixed number of byte
arguments; a test of variable arity is followed by a count and that many
16-bit words. Which tests those are is the only thing that can be configured.

Key definitions: `Opcode.action?`, `Opcode.test?`, `CommandSet.testArity?`.
-/

namespace AdventureLogic

/-- The first byte of a command, or a marker. -/
abbrev Opcode := UInt8

/-- The name of a command and how many arguments it takes. -/
structure Signature where
  name : String
  arity : Nat
  deriving DecidableEq, Inhabited

namespace Opcode

/-- Opens and closes the clauses of a condition. -/
def conditionMarker : Opcode := 0xFF

/-- An unconditional jump. -/
def gotoMarker : Opcode := 0xFE

/-- Negates the test that follows. -/
def notMarker : Opcode := 0xFD

/-- Opens and closes a group of alternatives. -/
def orMarker : Opcode := 0xFC

/-- The action that ends a logic. -/
def ret : Opcode := 0x00

/-- The test of the words that the player typed. -/
def said : Opcode := 0x0E

/-- The action commands, by opcode. -/
def actions : Array Signature :=
  #[
    ⟨"return", 0⟩, ⟨"increment", 1⟩, ⟨"decrement", 1⟩, ⟨"assignn", 2⟩, ⟨"assignv", 2⟩, ⟨"addn", 2⟩,
    ⟨"addv", 2⟩, ⟨"subn", 2⟩, ⟨"subv", 2⟩, ⟨"lindirectv", 2⟩, ⟨"rindirect", 2⟩, ⟨"lindirectn", 2⟩,
    ⟨"set", 1⟩, ⟨"reset", 1⟩, ⟨"toggle", 1⟩, ⟨"set.v", 1⟩, ⟨"reset.v", 1⟩, ⟨"toggle.v", 1⟩,
    ⟨"new.room", 1⟩, ⟨"new.room.v", 1⟩, ⟨"load.logics", 1⟩, ⟨"load.logics.v", 1⟩, ⟨"call", 1⟩,
    ⟨"call.v", 1⟩, ⟨"load.pic", 1⟩, ⟨"draw.pic", 1⟩, ⟨"show.pic", 0⟩, ⟨"discard.pic", 1⟩,
    ⟨"overlay.pic", 1⟩, ⟨"show.pri.screen", 0⟩, ⟨"load.view", 1⟩, ⟨"load.view.v", 1⟩,
    ⟨"discard.view", 1⟩, ⟨"animate.obj", 1⟩, ⟨"unanimate.all", 0⟩, ⟨"draw", 1⟩, ⟨"erase", 1⟩,
    ⟨"position", 3⟩, ⟨"position.v", 3⟩, ⟨"get.posn", 3⟩, ⟨"reposition", 3⟩, ⟨"set.view", 2⟩,
    ⟨"set.view.v", 2⟩, ⟨"set.loop", 2⟩, ⟨"set.loop.v", 2⟩, ⟨"fix.loop", 1⟩, ⟨"release.loop", 1⟩,
    ⟨"set.cel", 2⟩, ⟨"set.cel.v", 2⟩, ⟨"last.cel", 2⟩, ⟨"current.cel", 2⟩, ⟨"current.loop", 2⟩,
    ⟨"current.view", 2⟩, ⟨"number.of.loops", 2⟩, ⟨"set.priority", 2⟩, ⟨"set.priority.v", 2⟩,
    ⟨"release.priority", 1⟩, ⟨"get.priority", 2⟩, ⟨"stop.update", 1⟩, ⟨"start.update", 1⟩,
    ⟨"force.update", 1⟩, ⟨"ignore.horizon", 1⟩, ⟨"observe.horizon", 1⟩, ⟨"set.horizon", 1⟩,
    ⟨"object.on.water", 1⟩, ⟨"object.on.land", 1⟩, ⟨"object.on.anything", 1⟩, ⟨"ignore.objs", 1⟩,
    ⟨"observe.objs", 1⟩, ⟨"distance", 3⟩, ⟨"stop.cycling", 1⟩, ⟨"start.cycling", 1⟩,
    ⟨"normal.cycle", 1⟩, ⟨"end.of.loop", 2⟩, ⟨"reverse.cycle", 1⟩, ⟨"reverse.loop", 2⟩,
    ⟨"cycle.time", 2⟩, ⟨"stop.motion", 1⟩, ⟨"start.motion", 1⟩, ⟨"step.size", 2⟩, ⟨"step.time", 2⟩,
    ⟨"move.obj", 5⟩, ⟨"move.obj.v", 5⟩, ⟨"follow.ego", 3⟩, ⟨"wander", 1⟩, ⟨"normal.motion", 1⟩,
    ⟨"set.dir", 2⟩, ⟨"get.dir", 2⟩, ⟨"ignore.blocks", 1⟩, ⟨"observe.blocks", 1⟩, ⟨"block", 4⟩,
    ⟨"unblock", 0⟩, ⟨"get", 1⟩, ⟨"get.v", 1⟩, ⟨"drop", 1⟩, ⟨"put", 2⟩, ⟨"put.v", 2⟩,
    ⟨"get.room.v", 2⟩, ⟨"load.sound", 1⟩, ⟨"sound", 2⟩, ⟨"stop.sound", 0⟩, ⟨"print", 1⟩,
    ⟨"print.v", 1⟩, ⟨"display", 3⟩, ⟨"display.v", 3⟩, ⟨"clear.lines", 3⟩, ⟨"text.screen", 0⟩,
    ⟨"graphics", 0⟩, ⟨"set.cursor.char", 1⟩, ⟨"set.text.attribute", 2⟩, ⟨"shake.screen", 1⟩,
    ⟨"configure.screen", 3⟩, ⟨"status.line.on", 0⟩, ⟨"status.line.off", 0⟩, ⟨"set.string", 2⟩,
    ⟨"get.string", 5⟩, ⟨"word.to.string", 2⟩, ⟨"parse", 1⟩, ⟨"get.num", 2⟩, ⟨"prevent.input", 0⟩,
    ⟨"accept.input", 0⟩, ⟨"set.key", 3⟩, ⟨"add.to.pic", 7⟩, ⟨"add.to.pic.v", 7⟩, ⟨"status", 0⟩,
    ⟨"save.game", 0⟩, ⟨"restore.game", 0⟩, ⟨"init.disk", 0⟩, ⟨"restart.game", 0⟩, ⟨"show.obj", 1⟩,
    ⟨"random", 3⟩, ⟨"program.control", 0⟩, ⟨"player.control", 0⟩, ⟨"obj.status.v", 1⟩, ⟨"quit", 1⟩,
    ⟨"show.mem", 0⟩, ⟨"pause", 0⟩, ⟨"echo.line", 0⟩, ⟨"cancel.line", 0⟩, ⟨"init.joy", 0⟩,
    ⟨"toggle.monitor", 0⟩, ⟨"version", 0⟩, ⟨"script.size", 1⟩, ⟨"set.game.id", 1⟩, ⟨"log", 1⟩,
    ⟨"set.scan.start", 0⟩, ⟨"reset.scan.start", 0⟩, ⟨"reposition.to", 3⟩, ⟨"reposition.to.v", 3⟩,
    ⟨"trace.on", 0⟩, ⟨"trace.info", 3⟩, ⟨"print.at", 4⟩, ⟨"print.at.v", 4⟩, ⟨"discard.view.v", 1⟩,
    ⟨"clear.text.rect", 5⟩, ⟨"set.upper.left", 2⟩, ⟨"set.menu", 1⟩, ⟨"set.menu.item", 2⟩,
    ⟨"submit.menu", 0⟩, ⟨"enable.item", 1⟩, ⟨"disable.item", 1⟩, ⟨"menu.input", 0⟩,
    ⟨"show.obj.v", 1⟩, ⟨"open.dialogue", 0⟩, ⟨"close.dialogue", 0⟩, ⟨"mul.n", 2⟩, ⟨"mul.v", 2⟩,
    ⟨"div.n", 2⟩, ⟨"div.v", 2⟩, ⟨"close.window", 0⟩, ⟨"set.simple", 1⟩, ⟨"push.script", 0⟩,
    ⟨"pop.script", 0⟩, ⟨"hold.key", 0⟩, ⟨"set.pri.base", 1⟩, ⟨"discard.sound", 1⟩,
    ⟨"hide.mouse", 0⟩, ⟨"show.mouse", 0⟩, ⟨"fence.mouse", 4⟩, ⟨"mouse.posn", 2⟩, ⟨"release.key", 0⟩,
    ⟨"adj.ego.move.to.x.y", 0⟩]

/-- The test commands, by opcode. The arity of `said` is not used while `said` is of variable
arity. -/
def tests : Array Signature :=
  #[
    ⟨"return.false", 0⟩, ⟨"equaln", 2⟩, ⟨"equalv", 2⟩, ⟨"lessn", 2⟩, ⟨"lessv", 2⟩, ⟨"greatern", 2⟩,
    ⟨"greaterv", 2⟩, ⟨"isset", 1⟩, ⟨"issetv", 1⟩, ⟨"has", 1⟩, ⟨"obj.in.room", 2⟩, ⟨"posn", 5⟩,
    ⟨"controller", 1⟩, ⟨"have.key", 0⟩, ⟨"said", 0⟩, ⟨"compare.strings", 2⟩, ⟨"obj.in.box", 5⟩,
    ⟨"center.posn", 5⟩, ⟨"right.posn", 5⟩, ⟨"in.motion.using.mouse", 0⟩]

/-- The action command of an opcode. -/
def action? (op : Opcode) : Option Signature := actions[op.toNat]?

/-- The test command of an opcode. -/
def test? (op : Opcode) : Option Signature := tests[op.toNat]?

/-- The name of an action command in texts. -/
def actionName (op : Opcode) : String := (action? op).elim "unknown" Signature.name

/-- The number of arguments of an action command. -/
def actionArity? (op : Opcode) : Option Nat := (action? op).map Signature.arity

/-- The name of a test command in texts. -/
def testName (op : Opcode) : String := (test? op).elim "unknown_test" Signature.name

end Opcode

/-- How the arguments of a test stand in the code. -/
inductive TestArity where
  /-- That many bytes. -/
  | fixed (count : Nat)
  /-- A byte that counts, then that many words, low byte first. -/
  | counted
  deriving DecidableEq, Inhabited

/-- What reading and writing code have to know about commands. -/
structure CommandSet where
  /-- The tests of variable arity. -/
  variableTests : List Opcode := [Opcode.said]
  deriving DecidableEq, Inhabited

namespace CommandSet

/-- Whether a test is of variable arity. -/
def isVariableTest (set : CommandSet) (op : Opcode) : Bool := set.variableTests.contains op

/-- How the arguments of a test stand in the code; nothing for an unknown test. An opcode that is
configured as variable is known. -/
def testArity? (set : CommandSet) (op : Opcode) : Option TestArity :=
  if set.isVariableTest op then some .counted
  else (Opcode.test? op).map fun s => .fixed s.arity

end CommandSet
end AdventureLogic

import Wordloom.Compile.Pattern
import Wordloom.Container.Load
import Wordloom.Machine.Run
import Wordloom.Machine.Standard

/-!
# Wordloom.Engine

All that programs share: functions, seed pools, a dictionary, and the programs that others may
import. A program is to be run by the engine that compiled or loaded it, since it refers to
functions by their numbers.
-/

namespace Wordloom

structure Engine where
  registry : Registry := Standard.registry
  pools : Std.TreeMap String SeedPool := {}
  dictionary : Option Dictionary := none
  /-- the time that runs take, as their environment has it -/
  clock : Nat → Nat := fun _ => 0
  programs : Std.TreeMap String Program := {}
  /-- how many programs have been added -/
  added : Nat := 0

namespace Engine

/-- Adds a function, which hides an earlier one of the same name. -/
def addFunction (e : Engine) (f : Function) : Engine :=
  { e with registry := (e.registry.register f).2 }

def addPool (e : Engine) (name : String) (pool : SeedPool) : Engine :=
  { e with pools := e.pools.insert name pool }

/-- Lets others import a program by a name. -/
def addProgram (e : Engine) (name : String) (p : Program) : Engine :=
  { e with
    added := e.added + 1
    programs := e.programs.insert name { p with id := e.added + 1 } }

def compile (e : Engine) (name source : String) (debug : Bool) : Except Compile.Error Program :=
  Compile.compile { debug, registry := e.registry, imports := e.programs } name source

/-- The programs of the given names. -/
def link (e : Engine) (names : List String) : Except Container.LoadError (List Program) :=
  names.mapM fun name =>
    match e.programs[name]? with
    | some p => .ok p
    | none => .error (.unresolvedImport name)

/-- Loads a program and links its imports. -/
def load (e : Engine) (bytes : List UInt8) : Except Container.LoadError Program := do
  let p ← Container.load bytes
  return { p with references := ← e.link p.referenceNames.toList }

def environment (e : Engine) (options : Options) : Environment :=
  { registry := e.registry, pools := e.pools, dictionary := e.dictionary, clock := e.clock, options }

def run (e : Engine) (p : Program) (seed : UInt64) (options : Options) : Outcome :=
  p.run (e.environment options) seed

end Engine

end Wordloom

import Wordloom.Machine.Step

/-!
# Wordloom.Machine.Run

Runs of the machine, from one instruction to the next.
-/

namespace Wordloom

/-- The time is looked at each time so many instructions have been executed. -/
def deadlineInterval : Nat := 256

/-- The time is looked at after so many instructions, and it is over. -/
def Environment.isLate (env : Environment) (executed : Nat) : Bool :=
  executed % deadlineInterval = 0 && env.options.timeout.any (· ≤ env.clock executed)

/-- How a run ends. -/
inductive Outcome where
  | output (o : Output)
  | failure (e : RuntimeError)
  /-- the run takes more steps than were allowed -/
  | unfinished

namespace Running

/-- Counts an instruction and looks at the time. -/
def tick (env : Environment) : Running Unit := do
  let m ← get
  let executed := m.executed + 1
  set { m with executed }
  if env.isLate executed then throw .timeout

/-- Reads the next instruction. -/
def fetch : Running Instr := fun m =>
  let m := { m with current := ⟨m.frame.program, m.frame.position⟩ }
  match Instr.decodeAt m.frame.program.code m.frame.position with
  | .ok (i, position) => .ok i { m with frame := { m.frame with position } }
  | .error e => .error (.decode e) m

/-- Executes an instruction, or leaves a frame whose code is at its end. -/
def step (env : Environment) : Running Status := do
  let f := (← get).frame
  if f.program.code.size ≤ f.position then leave env
  else
    let i ← fetch
    tick env
    execute env i

end Running

namespace Machine

/-- Runs a machine for at most `steps` steps. -/
def run (env : Environment) (seed : UInt64) : (steps : Nat) → Machine → Outcome
  | 0, _ => .unfinished
  | steps + 1, m =>
    match Running.step env m with
    | .ok .running m => run env seed steps m
    | .ok .finished m => .output (m.root.finish seed)
    | .error fault m => .failure (m.failure fault)

end Machine

/-- More steps than any run takes in practice. -/
def stepLimit : Nat := 1 <<< 60

/-- Runs a program. -/
def Program.run (p : Program) (env : Environment) (seed : UInt64) : Outcome :=
  (Machine.start env.options p seed).run env seed stepLimit

end Wordloom

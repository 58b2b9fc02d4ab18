import TreeRules.Command.Run

/-! # The command line

The arguments are those of the program. The workspace comes as a snapshot on standard input: one
line of JSON with the files, the parsers' knowledge and the environment.
-/
namespace TreeRules.Main
open Snapshot

def workspaceOf (snapshot : Value) : Workspace :=
  ⟨entries (part "files" snapshot), toolkitOf (part "parsers" snapshot)⟩

def environmentOf (snapshot : Value) : Environment :=
  (entries (part "env" snapshot)).map fun (name, value) => (name, text value)

/-- Prints and writes what a run left behind, and gives its exit code. -/
def finish : Command.Ending → IO UInt32
  | .refused => do
    IO.eprintln "usage: [OPTIONS] highlight|indent|outline|rules [OPTIONS] ARGUMENT"
    return 2
  | .failed error => do
    IO.eprintln error.message
    return 1
  | .done result => do
    for (name, content) in result.written do
      IO.FS.writeFile name content
    IO.print result.output
    return UInt32.ofNat result.exit

end TreeRules.Main

def main (arguments : List String) : IO UInt32 := do
  let snapshot := (TreeRules.Value.read? (← (← IO.getStdin).getLine)).getD .null
  TreeRules.Main.finish
    (TreeRules.Command.run (TreeRules.Main.workspaceOf snapshot)
      (TreeRules.Main.environmentOf snapshot) arguments)

import Retrace.Shell.Run

/-! The programs that can be started.

A program is started in a directory. The shell is known, and so are the tools that it has of its
own; a path that leads to a file or a directory names nothing that can be run. -/
namespace Retrace.Checker

/-- Tools that are programs as well. -/
def tools : List String := ["true", "false", "echo", "printf", "sleep", "cat", "test"]

def startTool (d : Disk) (directory name : String) (arguments : List String) :
    Disk × Completion :=
  let s := Shell.State.start d directory name arguments
  (s.call ⟨.stdout, .stderr⟩ 1 name arguments).result

def startProgram (d : Disk) (directory program : String) (arguments : List String) :
    Disk × Completion :=
  if program == "sh" || program == "/bin/sh" then Shell.run d directory arguments
  else if tools.contains program then startTool d directory program arguments
  else if program.toList.contains '/' then
    match d.find (Path.join directory program) with
    | .ok _ => (d, .failed .permissionDenied)
    | .error cause => (d, .failed cause)
  else (d, .failed .notFound)

/-- Starts a command in its directory, or in the working directory. What it leaves on the disk
stays there. -/
def start (d : Disk) (c : Command) : Disk × Completion :=
  match c.directory with
  | none => startProgram d "" c.program c.arguments
  | some directory =>
    match d.find directory with
    | .ok .directory => startProgram d directory c.program c.arguments
    | .ok (.file _) => (d, .failed .notADirectory)
    | .error cause => (d, .failed cause)

def run (d : Disk) (c : Command) : Disk × Except Fault Output :=
  let (d, completion) := start d c
  (d, c.judge completion)

end Retrace.Checker

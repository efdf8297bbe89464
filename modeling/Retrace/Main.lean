import Retrace.Cli.Run

/-! The program.

It copies the working directory, carries out its command on the copy, and writes back the files
that have changed. Paths that lead out of the working directory are not found. The default
configuration stands in the program's home directory, which the environment may name. -/
namespace Retrace.Program

def homeVariable : String := "RUNVIS_HOME"

def defaultHome : String := ".runvis"

def pathOf (a : Address) : String := String.intercalate "/" ("." :: a)

/-- The disk with what stands in a directory and below it. What cannot be read is left out. -/
partial def copyFrom (d : Disk) (a : Address) : IO Disk := do
  let entries ← (← IO.FS.realPath (pathOf a)).readDir
  entries.foldlM (fun d e => do
    let b := a ++ [e.fileName]
    if ← e.path.isDir then copyFrom (d.put b .directory) b
    else
      try return d.put b (.file (.ofBytes (← IO.FS.readBinFile e.path).toList))
      catch _ => return d) d

def writeFile (change : Address × Content) : IO Unit := do
  IO.FS.createDirAll (pathOf change.1.dropLast)
  IO.FS.writeBinFile (pathOf change.1) (ByteArray.mk change.2.toBytes.toArray)

def refuse (fault : Cli.UsageFault) : IO UInt32 := do
  if fault.isMistake then
    IO.eprint fault.text
    return 2
  else
    IO.print fault.text
    return 0

def carryOut (invocation : Cli.Invocation) : IO UInt32 := do
  let before ← copyFrom .empty []
  let home := (← IO.getEnv homeVariable).getD defaultHome
  let (session, result) := Cli.run before (Path.join home "config.toml") invocation
  (before.changes session.disk).forM writeFile
  IO.print session.stdout
  session.stderr.forM IO.eprintln
  match result with
  | .ok () => return 0
  | .error fault =>
    IO.eprintln ("Error: " ++ fault.text)
    return 1

end Retrace.Program

def main (arguments : List String) : IO UInt32 :=
  match Retrace.Cli.Invocation.ofArguments arguments with
  | .ok invocation => Retrace.Program.carryOut invocation
  | .error fault => Retrace.Program.refuse fault

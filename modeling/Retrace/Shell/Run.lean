import Retrace.Checker.Command
import Retrace.Disk
import Retrace.Limit
import Retrace.Shell.Script
import Retrace.Shell.Tool
import Retrace.Text.Blank

/-! Running scripts.

A script runs on a disk, in a directory, and writes two streams. Time passes only while it sleeps.
What is written inside of a pipeline goes to the command behind it. `Shell.run` is the whole run
of a shell with its arguments. -/
namespace Retrace.Shell
open Checker (Completion)

/-- Where a stream of a command leads. -/
inductive Sink
  | stdout
  | stderr
  | pipe
  | nowhere
  | file (a : Address)
  deriving DecidableEq, Repr

inductive Ending
  | exit (code : Nat)
  | killed
  deriving DecidableEq, Repr

structure State where
  disk : Disk
  directory : String
  /-- What the shell calls itself. -/
  name : String
  arguments : List String
  values : Table String String
  status : Nat
  input : Bytes
  /-- What has been written, the latest byte first. -/
  stdout : Bytes
  stderr : Bytes
  piped : Bytes
  elapsed : Nat
  ending : Option Ending

structure Streams where
  out : Sink
  err : Sink

namespace State

def append (s : State) (sink : Sink) (bs : Bytes) : State :=
  match sink with
  | .stdout => {s with stdout := bs.reverse ++ s.stdout}
  | .stderr => {s with stderr := bs.reverse ++ s.stderr}
  | .pipe => {s with piped := bs.reverse ++ s.piped}
  | .nowhere => s
  | .file a =>
    let before := match s.disk.get? a with
      | some (.file c) => c.toBytes
      | _ => []
    {s with disk := s.disk.put a (.file (.ofBytes (before ++ bs)))}

def setStatus (s : State) (n : Nat) : State := {s with status := n}

/-- A complaint names the shell and the line. -/
def complain (s : State) (sink : Sink) (line : Nat) (text : String) : State :=
  s.append sink (bytesOf (s.name ++ s!": {line}: " ++ text ++ "\n"))

def pathOf (s : State) (path : String) : String := Path.join s.directory path

/-! ### Words -/

/-- The process id that a script knows itself by. -/
def ownProcess : String := "2"

def value (s : State) (name : String) : String :=
  match name with
  | "#" => toString s.arguments.length
  | "?" => toString s.status
  | "$" => ownProcess
  | "0" => s.name
  | "*" => String.intercalate " " s.arguments
  | "@" => String.intercalate " " s.arguments
  | name =>
    match Text.natural? 1000 name.toList with
    | some n => (s.arguments[n - 1]?).getD ""
    | none => (s.values.get? name).getD ""

/-- A stretch of a word; `none` is a place where the word is cut. -/
abbrev Stretch := Option String

def cut : List String → List Stretch
  | [] => []
  | [w] => [some w]
  | w :: rest => some w :: none :: cut rest

/-- White space outside of quotes cuts words. -/
def splitValue (text : String) : List Stretch :=
  let cs := text.toList
  let ws := (Text.words cs).map String.ofList
  let lead := if cs.head?.any Text.isBlank then [none] else []
  let trail := if cs.getLast?.any Text.isBlank then [none] else []
  lead ++ cut ws ++ trail

def stretches (s : State) : Part → List Stretch
  | .text t => [some t]
  | .parameter true "@" => cut s.arguments
  | .parameter true name => [some (s.value name)]
  | .parameter false name =>
    if name == "@" || name == "*" then
      (s.arguments.map splitValue).intersperse [none] |>.flatten
    else splitValue (s.value name)

/-- The words between the cuts; where nothing stands there is no word. -/
def gather (open? : Option String) : List Stretch → List String
  | [] => open?.toList
  | none :: rest => open?.toList ++ gather none rest
  | some t :: rest => gather (some (open?.getD "" ++ t)) rest

def expand (s : State) (w : Word) : List String := gather none (w.flatMap s.stretches)

def expandAll (s : State) (ws : List Word) : List String := ws.flatMap s.expand

/-- A word that is not cut. -/
def expandWhole (s : State) (w : Word) : String :=
  String.join (w.map fun p =>
    match p with
    | .text t => t
    | .parameter _ name => s.value name)

def assign (s : State) (a : String × Word) : State :=
  {s with values := s.values.put a.1 (s.expandWhole a.2)}

/-! ### Redirections -/

def sinkOf (ss : Streams) : String → Option Sink
  | "1" => some ss.out
  | "2" => some ss.err
  | _ => none

def Streams.set (ss : Streams) (stream : Nat) (sink : Sink) : Streams :=
  if stream == 1 then {ss with out := sink}
  else if stream == 2 then {ss with err := sink}
  else ss

def openInput (s : State) (ss : Streams) (path : String) : Except String (State × Streams) :=
  if path == "/dev/null" then .ok ({s with input := []}, ss)
  else
    match s.disk.content (s.pathOf path) with
    | .ok c => .ok ({s with input := c.toBytes}, ss)
    | .error _ => .error ("cannot open " ++ path ++ ": No such file")

def openOutput (s : State) (ss : Streams) (stream : Nat) (keep : Bool) (path : String) :
    Except String (State × Streams) :=
  if path == "/dev/null" then .ok (s, Streams.set ss stream .nowhere)
  else
    match s.disk.resolve (s.pathOf path) with
    | .error _ => .error ("cannot create " ++ path ++ ": Directory nonexistent")
    | .ok a =>
      match s.disk.get? a with
      | some .directory => .error ("cannot create " ++ path ++ ": Is a directory")
      | some (.file _) =>
        let d := if keep then s.disk else s.disk.put a (.file (.text ""))
        .ok ({s with disk := d}, Streams.set ss stream (.file a))
      | none =>
        .ok ({s with disk := s.disk.put a (.file (.text ""))}, Streams.set ss stream (.file a))

def redirect (s : State) (ss : Streams) (r : Redirection) : Except String (State × Streams) :=
  let target := s.expandWhole r.target
  match r.direction with
  | .input => s.openInput ss target
  | .output => s.openOutput ss r.stream false target
  | .append => s.openOutput ss r.stream true target
  | .duplicate =>
    match sinkOf ss target with
    | some sink => .ok (s, Streams.set ss r.stream sink)
    | none => .error (target ++ ": Bad file descriptor")

def redirectAll (s : State) (ss : Streams) (rs : List Redirection) :
    Except String (State × Streams) :=
  rs.foldlM (fun (s, ss) r => s.redirect ss r) (s, ss)

/-! ### Commands -/

def report (s : State) (ss : Streams) (line : Nat) (r : Report) : State :=
  let s := (s.append ss.out r.out).setStatus r.status
  if r.complaint == "" then s
  else s.append ss.err (bytesOf (s.name ++ s!": {line}: " ++ r.complaint))

def readFile (s : State) (path : String) : Option Bytes :=
  (s.disk.content (s.pathOf path)).toOption.map Content.toBytes

def cat (s : State) (ss : Streams) : List String → State
  | [] => s
  | path :: rest =>
    let s := match if path == "-" then some s.input else s.readFile path with
      | some bs => s.append ss.out bs
      | none =>
        (s.append ss.err (bytesOf ("cat: " ++ path ++ ": No such file or directory\n"))).setStatus 1
    cat s ss rest

def exit (s : State) (ss : Streams) (line : Nat) : List String → State
  | [] => {s with ending := some (.exit s.status)}
  | word :: _ =>
    match Text.natural? Limit.signedWord word.toList with
    | some n => {s with ending := some (.exit (n % 256))}
    | none =>
      {s.complain ss.err line ("exit: Illegal number: " ++ word) with ending := some (.exit 2)}

def sleep (s : State) (ss : Streams) : List String → State
  | [] =>
    (s.append ss.err (bytesOf "sleep: missing operand\n")).setStatus 1
  | word :: _ =>
    match Tool.milliseconds? word with
    | some n => {s.setStatus 0 with elapsed := s.elapsed + n}
    | none =>
      (s.append ss.err (bytesOf ("sleep: invalid time interval '" ++ word ++ "'\n"))).setStatus 1

/-- Reads a line into a variable; at the end of the input it fails. -/
def readLine (s : State) (names : List String) : State :=
  let line := s.input.takeWhile (· ≠ 10)
  let rest := s.input.drop line.length
  let text := Text.trim (Text.Utf8.decode Text.Utf8.replacement line)
  let s := match names.head? with
    | some name => {s with values := s.values.put name text}
    | none => s
  {s with input := rest.drop 1, status := if rest.isEmpty then 1 else 0}

def isFile (s : State) (path : String) : Bool := (s.readFile path).isSome

def isDirectory (s : State) (path : String) : Bool := s.disk.isDirectory (s.pathOf path)

/-- Signals that end no script are numbered zero. -/
def kill (s : State) (arguments : List String) : State :=
  if arguments.contains "-0" then s.setStatus 0
  else if arguments.contains ownProcess then {s with ending := some .killed}
  else s.setStatus 1

def test (s : State) (ss : Streams) (line : Nat) (arguments : List String) : State :=
  s.report ss line (Tool.condition s.isFile s.isDirectory arguments)

def call (s : State) (ss : Streams) (line : Nat) (name : String) (arguments : List String) :
    State :=
  match name with
  | ":" => s.setStatus 0
  | "true" => s.setStatus 0
  | "false" => s.setStatus 1
  | "echo" => s.report ss line (Tool.echo arguments)
  | "printf" => s.report ss line (Tool.printf arguments)
  | "exit" => s.exit ss line arguments
  | "sleep" => s.sleep ss arguments
  | "cat" =>
    if arguments.isEmpty then
      {(s.append ss.out s.input).setStatus 0 with input := []}
    else (s.setStatus 0).cat ss arguments
  | "read" => s.readLine (arguments.filter (· ≠ "-r"))
  | "kill" => s.kill arguments
  | "shift" => {s.setStatus 0 with arguments := s.arguments.drop 1}
  | "test" => s.test ss line arguments
  | "[" =>
    if arguments.getLast? == some "]" then s.test ss line arguments.dropLast
    else (s.complain ss.err line "[: missing ]").setStatus 2
  | name => (s.complain ss.err line (name ++ ": not found")).setStatus 127

def runSimple (s : State) (ss : Streams) (line : Nat) (assignments : List (String × Word))
    (words : List Word) (rs : List Redirection) : State :=
  match s.redirectAll ss rs with
  | .error text => (s.complain ss.err line text).setStatus 2
  | .ok (t, inner) =>
    match t.expandAll words with
    | [] => {(assignments.foldl assign t).setStatus 0 with input := s.input}
    | name :: arguments =>
      let t := t.call inner line name arguments
      {t with input := if rs.any (·.direction == .input) then s.input else t.input}

/-- What a shell of its own leaves behind: its variables and its end are its own. -/
def leave (outer inner : State) : State :=
  let s := {inner with
    values := outer.values, arguments := outer.arguments, ending := outer.ending}
  match inner.ending with
  | some (.exit n) => s.setStatus n
  | some .killed => s.setStatus 137
  | none => s

def runScript (ss : Streams) : Script → State → State
  | .skip, s => s
  | .simple line assignments words rs, s => s.runSimple ss line assignments words rs
  | .sequence a b, s =>
    let s := runScript ss a s
    if s.ending.isSome then s else runScript ss b s
  | .both a b, s =>
    let s := runScript ss a s
    if s.ending.isSome || s.status ≠ 0 then s else runScript ss b s
  | .either a b, s =>
    let s := runScript ss a s
    if s.ending.isSome || s.status == 0 then s else runScript ss b s
  | .negate a, s =>
    let s := runScript ss a s
    if s.ending.isSome then s else s.setStatus (if s.status == 0 then 1 else 0)
  | .pipe a b, s =>
    let front := s.leave (runScript {ss with out := .pipe} a {s with piped := []})
    let back := runScript ss b {front with input := front.piped.reverse, piped := s.piped}
    {s.leave back with input := s.input}
  | .group a rs, s =>
    match s.redirectAll ss rs with
    | .error text => (s.complain ss.err 1 text).setStatus 2
    | .ok (t, inner) => runScript inner a t
  | .subshell a rs, s =>
    match s.redirectAll ss rs with
    | .error text => (s.complain ss.err 1 text).setStatus 2
    | .ok (t, inner) => s.leave (runScript inner a t)
  | .choice c yes no, s =>
    let s := runScript ss c s
    if s.ending.isSome then s
    else if s.status == 0 then runScript ss yes (s.setStatus 0)
    else runScript ss no (s.setStatus 0)
  | .each name words body, s =>
    (s.expandAll words).foldl (fun s w =>
      if s.ending.isSome then s
      else runScript ss body {s with values := s.values.put name w}) (s.setStatus 0)

/-! ### A whole shell -/

def start (d : Disk) (directory name : String) (arguments : List String) : State where
  disk := d
  directory := directory
  name := name
  arguments := arguments
  values := Table.empty
  status := 0
  input := []
  stdout := []
  stderr := []
  piped := []
  elapsed := 0
  ending := none

/-- The disk that is left behind, and how the run has ended. -/
def result (s : State) : Disk × Completion :=
  let code : Option Int := match s.ending with
    | some (.exit n) => some n
    | some .killed => none
    | none => some s.status
  (s.disk, .ended code s.stdout.reverse s.stderr.reverse s.elapsed)

def runText (s : State) (text : String) : State :=
  match Script.ofText? text with
  | some script => runScript ⟨.stdout, .stderr⟩ script s
  | none => (s.complain .stderr 1 "Syntax error").setStatus 2

def complainOnStart (d : Disk) (directory text : String) : State :=
  ((start d directory "sh" []).complain .stderr 0 text).setStatus 2

/-- A shell with its arguments: a text behind `-c`, or the path of a script. -/
def ofShell (d : Disk) (directory : String) (arguments : List String) : State :=
  match arguments with
  | [] => start d directory "sh" []
  | ["-c"] => complainOnStart d directory "-c requires an argument"
  | ["-c", text] => (start d directory "sh" []).runText text
  | "-c" :: text :: name :: rest => (start d directory name rest).runText text
  | path :: rest =>
    match d.read (Path.join directory path) with
    | .ok text => (start d directory path rest).runText text
    | .error _ => complainOnStart d directory ("cannot open " ++ path ++ ": No such file")

end State

/-- The whole run of a shell. -/
def run (d : Disk) (directory : String) (arguments : List String) : Disk × Completion :=
  (State.ofShell d directory arguments).result

end Retrace.Shell

import DurableTopic.Command.Program
import DurableTopic.Config.Outline
import DurableTopic.Repository.Embedded.Image
/-! The administration program on a real machine: it reads the environment, the configuration file
and the database file, runs, and writes the database file back. -/

namespace DurableTopic.Main

open Repository.Embedded (Address Path Volume Image.read Image.write)

def readBytes? (path : String) : IO (Option Bytes) := do
  try
    return some (← IO.FS.readBinFile path).data.toList
  catch _ => return none

/-- The document in a configuration file, or the reason why there is none. -/
def readDocument (path : String) : IO (Except String Config.Tree) := do
  let some content ← readBytes? path | return .error "bad file"
  return ((Text.ofUtf8? content).bind Config.Outline.read?).elim (.error "bad document") .ok

/-- The variables that the program looks at. -/
def variableNames : List String :=
  [Log.levelVariable, Log.patternVariable, Telemetry.commonVariable,
   Telemetry.Signal.traces.variableName, Telemetry.Signal.metrics.variableName]

def readEnvironment : IO Environment := do
  let pairs ← variableNames.filterMapM fun name => do
    return (← IO.getEnv name).map fun value => (name, value)
  return .ofList pairs

/-- The address of the database that a configuration document names. -/
def databaseAddress? (document : Except String Config.Tree) : Option String :=
  match Config.load .file document .strict with
  | .ok { database := some (.sqlite path ..), .. } => some path
  | _ => none

def pathText (p : Path) : String := (Text.ofUtf8? p.written).getD ""

/-- Looks at what is at a path. -/
def look (v : Volume) (p : Path) : IO Volume := do
  let isDirectory ← try (← IO.FS.realPath (pathText p ++ "/")).isDir catch _ => pure false
  if isDirectory then return { v with directories := p :: v.directories }
  match ← readBytes? (pathText p) with
  | some b => return { v with files := v.files.put p (Image.read b) }
  | none => return v

/-- The part of the disk that matters for the database at an address. -/
def readVolume (address : String) : IO Volume := do
  let working := Path.names (Text.utf8 (← IO.currentDir).toString)
  match Address.read address with
  | .error _ => return { working }
  | .ok a =>
    let ways := (a.path :: a.model.toList).map fun b =>
      Path.visited (Path.start working b) (Path.names b)
    ways.flatten.foldlM look { working, directories := [[]] }

def writeVolume (v : Volume) : IO Unit :=
  v.files.pairs.forM fun (p, f) =>
    match f with
    | .database t => IO.FS.writeBinFile (pathText p) ⟨(Image.write t).toArray⟩
    | _ => pure ()

def put (stream : IO.FS.Stream) (b : Bytes) : IO Unit := do
  stream.write ⟨b.toArray⟩
  stream.flush

end DurableTopic.Main

open DurableTopic DurableTopic.Main in
def main (args : List String) : IO UInt32 := do
  let document ← readDocument (args[1]?.getD "")
  let volume ← ((databaseAddress? document).elim (pure {}) readVolume : IO _)
  let machine : Machine := { environment := ← readEnvironment, volume }
  let errors ← IO.getStderr
  match machine.run document args .strict with
  | none => return 1
  | some (report, after) =>
    writeVolume after.volume
    put errors (Text.utf8 (String.join (after.logger.lines.map (· ++ "\n"))))
    put (← IO.getStdout) report.output
    put errors report.errors
    return report.code

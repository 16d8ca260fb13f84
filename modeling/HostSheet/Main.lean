import HostSheet.Command.Run

set_option autoImplicit false

/-!
# The program

Looks at the files that the command line names, runs the command on what was found, and
carries out what it did.
-/

namespace HostSheet.Main

/-- Bytes as the content of a file. -/
def contentOfBytes (bytes : ByteArray) : Content :=
  match String.fromUTF8? bytes with
  | some s => .text s.toList
  | none => .bytes

/-- Whether there is a folder at a path.  Only a folder has an entry for itself. -/
def isFolderOnDisk (path : Text) : IO Bool := do
  if path.isEmpty then return false
  try
    discard <| IO.FS.realPath (String.ofList (path ++ ['/', '.']))
    return true
  catch _ => return false

/-- The beginnings of a path that end in front of a slash, and the path itself. -/
def beginnings (path : Text) : List Text :=
  (List.range path.length).filterMap (fun i =>
    if path[i]? = some '/' ∧ 0 < i then some (path.take i) else none) ++ [path]

/-- Add the file or folder at a path to what is known. -/
def addExisting (d : Directory) (path : Text) : IO Directory := do
  let place := Place.ofPath path
  if ← isFolderOnDisk path then return { d with folders := place :: d.folders }
  try
    let content := contentOfBytes (← IO.FS.readBinFile (String.ofList path))
    return { d with files := (place, content) :: d.files }
  catch _ => return d

/-- What the request may look at. -/
def look (request : Command.Request) : IO Command.Surroundings := do
  let mut d : Directory := {}
  for path in (request.reads ++ request.writes.toList).flatMap beginnings do
    d ← addExisting d path
  let standardInput ←
    if request.reads.contains Command.standardInputPath then
      contentOfBytes <$> (← IO.getStdin).readBinToEnd
    else pure (.text [])
  return ⟨d, standardInput⟩

end HostSheet.Main

open HostSheet

/-- Run the program on the words of its command line. -/
def main (args : List String) : IO UInt32 := do
  let words := args.map String.toList
  let surroundings ← match Command.ofWords words with
    | .ok request => Main.look request
    | .error _ => pure {}
  let outcome := Command.run surroundings words
  for (place, content) in surroundings.directory.changed outcome.directory do
    match content with
    | .text s => IO.FS.writeFile (String.ofList (Place.path place)) (String.ofList s)
    | .bytes => pure ()
  IO.print (String.ofList outcome.stdout)
  IO.eprint (String.ofList outcome.stderr)
  return outcome.code.toUInt32

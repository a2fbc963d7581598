import PegScribe.Command.Run
import PegScribe.Nested

/-!
The program: takes its words, reads the file that they name, and prints what the command says.
-/
namespace PegScribe.Command

/-- Characters that stand for themselves in an address. -/
def isPlainInUri (b : Nat) : Bool :=
  let c := Char.ofNat b
  b < 128 && (Text.isAsciiAlnum c || c = '_' || c = '.' || c = '-' || c = '~' || c = '/')

/-- The address of a file by its full path. -/
def fileUri (path : String) : String :=
  "file://" ++ String.ofList (path.toUTF8.toList.flatMap fun b =>
    let n := b.toNat
    if isPlainInUri n then [Char.ofNat n]
    else '%' :: (Text.hex 2 n).map Char.toUpper)

/-- Why reading went wrong. -/
def troubleOf : IO.Error → FileTrouble
  | .inappropriateType _ code _ =>
    if code = 20 then .notADirectory else .isDirectory
  | .permissionDenied .. => .denied
  | .noFileOrDirectory .. => .notFound
  | e => .other "OSError" (toString e)

/-- Reads a file. -/
def readFile (path : String) : IO (Except FileTrouble File) := do
  try
    let bytes ← IO.FS.readBinFile path
    let full ← IO.FS.realPath path
    return .ok ⟨fileUri full.toString, bytes.toList.map (·.toNat)⟩
  catch e => return .error (troubleOf e)

/-- The file that the words name. -/
def inputPath? (words : List String) : Option String :=
  match Request.ofWords words with
  | .ok r => r.input.map plainPath
  | .error _ => none

/-- Carries a command out and returns its code. -/
def perform (words : List String) : IO UInt32 := do
  let file ← match inputPath? words with
    | some path => readFile path
    | none => pure (.error .notFound)
  match run { read := fun _ => file } words with
  | .finished code out err =>
    IO.eprint err
    IO.print out
    return code.toUInt32
  | .misused .help => return 0
  | .misused m =>
    IO.eprintln m.message
    return 2
  | .escaped f =>
    IO.eprintln (f.kind ++ ": " ++ f.message)
    return 1

end PegScribe.Command

/-- Runs the program. -/
def main (words : List String) : IO UInt32 := PegScribe.Command.perform words

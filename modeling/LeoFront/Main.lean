import LeoFront.Command.Run
import LeoFront.Files.Edit

namespace LeoFront.Main
open Command

structure Picture where
  tree : Tree
  seen : List String

partial def capture (picture : Picture) (path : String) : IO Picture := do
  if picture.seen.contains path then return picture
  let seen := path :: picture.seen
  let bytes := Text.Utf8.encode path
  let there ← try IO.FS.realPath path catch _ => return { picture with seen }
  if !(← there.pathExists) then return { picture with seen }
  if there.toString ≠ path then
    let picture ← capture { picture with seen } there.toString
    return { picture with tree := picture.tree.makeLink bytes (Text.Utf8.encode there.toString) }
  if ← there.isDir then
    (← there.readDir).foldlM (fun picture entry => capture picture entry.path.toString)
      ⟨picture.tree.makeDirectory bytes, seen⟩
  else
    return ⟨picture.tree.writeFile bytes (← IO.FS.readBinFile path).toList, seen⟩

def write (output : IO.FS.Stream) (lines : List Line) : IO Unit := do
  lines.forM fun line => output.putStr (line.render ++ "\n")
  output.flush

end LeoFront.Main

open LeoFront LeoFront.Command in
def main (arguments : List String) : IO UInt32 := do
  let environment : Environment := ⟨← IO.getEnv "LOG_LEVEL", ← IO.getEnv "LEO_PACKAGE_ROOT"⟩
  let cwd := Tree.steps (Text.Utf8.encode (← IO.currentDir).toString)
  let empty : Workspace := ⟨.empty, cwd, false⟩
  let picture ← (readPaths environment empty arguments).foldlM Main.capture ⟨.empty, []⟩
  let outcome := run environment { empty with tree := picture.tree } arguments
  Main.write (← IO.getStdout) outcome.out
  Main.write (← IO.getStderr) outcome.err
  return outcome.exitCode.toUInt32

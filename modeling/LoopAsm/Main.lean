/-
The program itself: the file operations of the system under the command line, with its log
turned off.
-/
import LoopAsm.Command.Run

namespace LoopAsm

/-- A failure of the system, as far as the program tells them apart. -/
def IoFault.ofSystem : IO.Error → IoFault
  | .noFileOrDirectory .. => .notFound
  | e => .other (toString e)

/-- Runs a file operation and keeps its failure. -/
def attempt (act : IO Unit) : IO (Except IoFault Unit) := do
  try
    act
    return .ok ()
  catch e => return .error (IoFault.ofSystem e)

/-- The file operations of the system. -/
def systemDisk : Disk IO where
  openFile name := attempt do
    let _ ← IO.FS.Handle.mk name .read
  createFile name := attempt do
    let _ ← IO.FS.Handle.mk name .write
  readFile name := do return (← IO.FS.readBinFile name).toList
  writeFile name bytes := IO.FS.writeBinFile name bytes.toByteArray

end LoopAsm

def main (args : List String) : IO UInt32 := do
  let report ← LoopAsm.Command.dispatch LoopAsm.systemDisk args
  IO.print (report.shown .off)
  IO.eprint report.stderr
  return report.code.toUInt32

import Chronicle.Run

/-!
The command line program: a run on the files of the machine.
-/

namespace Chronicle

/-- A file that opens may still refuse to be read. -/
def readHandle (handle : IO.FS.Handle) : IO Content := do
  try
    let content ← handle.readBinToEnd
    pure (.bytes content.data.toList)
  catch _ => pure .unreadable

def readContent (path : String) : IO Content := do
  try
    let handle ← IO.FS.Handle.mk path .read
    readHandle handle
  catch _ => pure .missing

def writeText (path text : String) : IO Bool := do
  try
    IO.FS.writeFile path text
    pure true
  catch _ => pure false

def machineFiles : Files IO where
  read := readContent
  write := writeText

/-- A run reports its outcome on the output streams and by its exit code. -/
def Run.onMachine (arguments : List String) : IO UInt32 := do
  let outcome ← Run.execute machineFiles arguments
  IO.print outcome.output
  IO.eprint outcome.complaint
  pure outcome.exitCode.toUInt32

end Chronicle

def main (arguments : List String) : IO UInt32 := Chronicle.Run.onMachine arguments

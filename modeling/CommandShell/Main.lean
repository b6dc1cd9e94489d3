import CommandShell.Disk.Image
import CommandShell.Program

/-!
# Command line

The shell on a disk in memory: it starts in `/tmp`, reads the whole standard input as its lines, and
writes to both standard streams.
-/

open CommandShell

/-- Runs the shell on the standard input. -/
def main : IO UInt32 := do
  let input ← (← IO.getStdin).readBinToEnd
  let env : Environment :=
    { home := ← IO.getEnv "HOME"
      userProfile := ← IO.getEnv "USERPROFILE"
      settingsFile := ← IO.getEnv "MINISH_CONFIG" }
  let outcome := runProgram Disk.standard (.ofString "/tmp") env input.toList
  let out ← IO.getStdout
  out.write (ByteArray.mk outcome.out.toArray)
  out.flush
  let err ← IO.getStderr
  err.write (ByteArray.mk outcome.err.toArray)
  err.flush
  return UInt32.ofNat outcome.code

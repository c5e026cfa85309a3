/-
Names in the runtime that the emitted code relies on, and the form of the output.
-/
namespace Ia32Backend

structure Config where
  /-- Source name of the function in which the program starts. -/
  entryName : String := "main"
  /-- Called right after the entry function has reserved its stack. -/
  startRoutine : String := "___main"
  /-- Called with the pause string before the entry function returns. -/
  pauseRoutine : String := "_system"
  /-- Text of the pause string. -/
  pauseText : String := "pause"
  /-- Written after every line. -/
  lineEnd : String := "\n"
  deriving DecidableEq, Repr

end Ia32Backend

import SqlLayout.CommandLine

/-! The program: reads a statement from the standard input and writes it laid out. -/

set_option autoImplicit false

open SqlLayout

def main (args : List String) : IO UInt32 := do
  let stderr ← IO.getStderr
  let outcome ← match (CommandLine.request args).outcome with
    | .inl answer => do
      if answer.exit ≠ 0 then stderr.putStr CommandLine.usageText
      pure answer
    | .inr settings => do
      let input ← (← IO.getStdin).readBinToEnd
      pure (settings.execute input)
  (← IO.getStdout).putStr outcome.output
  for line in outcome.errors do
    stderr.putStrLn line
  return outcome.exit.toUInt32

import TemporalMotif.Command

/-! # Entry point: reads the two files the command names and prints the answer. -/

open TemporalMotif

def main (args : List String) : IO UInt32 := do
  match Command.parse args with
  | .error msg =>
    IO.eprintln s!"error: {msg}"
    pure 2
  | .ok c =>
    let qText ← IO.FS.readFile c.query
    let tText ← IO.FS.readFile c.target
    match c.answer qText tText with
    | .ok out =>
      IO.print out
      pure 0
    | .error msg =>
      IO.eprintln s!"Error: {msg}"
      pure 1

import BrilKit.Tool.Names

open BrilKit

def readFiles (args : List String) : IO (List (String × String)) :=
  args.filterMapM fun (path : String) => do
    try
      let text ← IO.FS.readFile path
      return some (path, text)
    catch _ => return none

def main (args : List String) : IO UInt32 := do
  match args with
  | [] =>
    IO.eprintln ("tools: " ++ " ".intercalate (Tool.named.map Prod.fst))
    return 2
  | name :: args =>
    match Tool.ofName? name with
    | none =>
      IO.eprintln ("no tool " ++ name)
      return 2
    | some tool =>
      let input ← (← IO.getStdin).readToEnd
      let files ← readFiles args
      match tool.run { args, input, files } with
      | .ok text =>
        IO.print text
        return 0
      | .error fault =>
        IO.eprintln (fault.message.getD "failed")
        return 1

import StackScript.Command

/-!
# The executable

Reads the files that the command names and its input, and writes what the command
yields. With a terminal for input, lines are answered as they are typed.
-/

namespace StackScript.Main

/-- The instructions that a source may execute: more than can ever be. -/
def fuel : Nat := 4611686018427387904

/-- Write bytes to a stream. -/
def put (stream : IO.FS.Stream) (bytes : Bytes) : IO Unit := do
  stream.write ⟨bytes.toArray⟩
  stream.flush

/-- Everything that a stream still holds, after pieces that were read before, last first. -/
partial def readAll (stream : IO.FS.Stream) (pieces : List Bytes) : IO Bytes := do
  let piece ← stream.read 65536
  if piece.isEmpty then pure pieces.reverse.flatten
  else readAll stream (piece.toList :: pieces)

/-- The content of the file with a name. -/
def readFile (name : Bytes) : IO (Except FileError Bytes) := do
  match String.fromUTF8? ⟨name.toArray⟩ with
  | none => pure (.error .missing)
  | some path =>
    try
      let content ← IO.FS.readBinFile path
      pure (.ok content.toList)
    catch
      | .noSuchThing .. | .noFileOrDirectory .. => pure (.error .missing)
      | .inappropriateType .. => pure (.error .notDirectory)
      | _ => pure (.error .isDirectory)

/-- The files that options name, with their contents. -/
def readNamed (o : Options) : IO (List (Bytes × Except FileError Bytes)) := do
  let names := (if o.config = [] then [] else [o.config]) ++ o.arguments.take 1
  names.mapM fun name => do pure (name, ← readFile name)

/-- Answer lines as they are typed. -/
partial def converse (stats : Bool) (s : Session) : IO Unit := do
  let output ← IO.getStdout
  put output Repl.prompt
  let line ← (← IO.getStdin).getLine
  match (Repl.lines (Bytes.ofString line)).map Repl.Line.ofBytes with
  | [] => pure ()
  | .leave :: _ => pure ()
  | line :: _ => do
    let (a, s) := line.answer fuel stats s
    put (← IO.getStderr) a.trace
    put output a.text
    converse stats s

/-- Run the command in a terminal if it holds a conversation, and on the whole input if not. -/
def execute (arguments : List Bytes) : IO UInt32 := do
  let options := Options.parse arguments
  let named ←
    match options with
    | .ok o => readNamed o
    | .error _ => pure []
  let read (name : Bytes) : Except FileError Bytes := (named.lookup name).getD (.error .missing)
  let input ← IO.getStdin
  if let .ok o := options then
    if o.expression = [] && o.arguments = [] && (← input.isTty) then
      if let .ok c := Command.settings read o then
        put (← IO.getStdout) Repl.banner
        converse o.stats (.new c o.trace)
        return 0
  let reads : Bool :=
    match options with
    | .ok o => o.expression = [] && o.arguments = []
    | .error _ => false
  let content ← if reads then readAll input [] else pure []
  let r := Command.run fuel read content arguments
  put (← IO.getStdout) r.output
  put (← IO.getStderr) r.errors
  pure r.code.toUInt32

end StackScript.Main

/-- Run the command with the arguments of the process. -/
def main (arguments : List String) : IO UInt32 :=
  StackScript.Main.execute (arguments.map StackScript.Bytes.ofString)

import StackScript.Config.Load
import StackScript.Repl
import StackScript.Text.Lower

/-!
# The command

The command evaluates an expression, runs a file, or holds a conversation. Its
options come before the name of the file; each has one or two hyphens, and a
value after an equals sign or in the next argument. An option that is on or off
takes a value only after an equals sign.

## Main definitions

* `Options.parse`: the options in the arguments.
* `Command.run`: what the command writes, and its exit code.
-/

namespace StackScript

/-- The options of the command. -/
structure Options where
  /-- The source to evaluate; empty if there is none. -/
  expression : Bytes
  /-- The file of settings; empty if there is none. -/
  config : Bytes
  listing : Bool
  stats : Bool
  /-- The verbosity of the log; zero leaves it to the settings. -/
  verbosity : Int
  trace : Bool
  /-- The arguments after the options. -/
  arguments : List Bytes
  deriving DecidableEq, Repr

namespace Options

/-- The options where none are given. -/
def default : Options := ⟨[], [], false, false, 0, false, []⟩

/-- What is wrong with an argument. -/
inductive Fault
  | malformed (argument : Bytes)
  | undefined (name : Bytes)
  | needsArgument (name : Bytes)
  | value (text name : Bytes) (e : Numeral.Fault)
  | boolean (text name : Bytes)
  deriving DecidableEq, Repr

/-- What is said about the fault. -/
def Fault.message : Fault → Bytes
  | .malformed argument => "bad flag syntax: " ++ argument
  | .undefined name => "flag provided but not defined: -" ++ name
  | .needsArgument name => "flag needs an argument: -" ++ name
  | .value text name e =>
    "invalid value " ++ text.quoted ++ " for flag -" ++ name ++ ": "
      ++ (if e = .range then "value out of range" else "parse error")
  | .boolean text name => "invalid boolean value " ++ text.quoted ++ " for -" ++ name ++ ": parse error"

/-- Why the command does not start. -/
inductive Stop
  /-- The usage is asked for. -/
  | help
  | fault (e : Fault)
  deriving DecidableEq, Repr

/-- The words for on and off. -/
def boolean? (s : Bytes) : Option Bool :=
  if ["1", "t", "T", "true", "TRUE", "True"].any fun w => s = Bytes.ofString w then some true
  else if ["0", "f", "F", "false", "FALSE", "False"].any fun w => s = Bytes.ofString w then some false
  else none

/-- What an option takes. -/
inductive Kind
  | switch (give : Options → Bool → Options)
  | text (give : Options → Bytes → Options)
  | integer (give : Options → Int → Options)

/-- The option with a name. -/
def kind? (name : Bytes) : Option Kind :=
  [("e", .text fun o s => { o with expression := s }),
    ("config", .text fun o s => { o with config := s }),
    ("dis", .switch fun o b => { o with listing := b }),
    ("stats", .switch fun o b => { o with stats := b }),
    ("v", .integer fun o n => { o with verbosity := n }),
    ("trace", .switch fun o b => { o with trace := b })].findSome? fun (n, k) =>
      if Bytes.ofString n = name then some k else none

/-- The name of an option and the value after its equals sign. The name has at least one byte. -/
def splitValue (s : Bytes) : Bytes × Option Bytes :=
  let name := s.take 1 ++ (s.drop 1).takeWhile (· ≠ 61)
  if name.length < s.length then (name, some (s.drop (name.length + 1))) else (name, none)

/-- An option without its hyphens, if the argument is one. -/
def body? : Bytes → Option Bytes
  | 45 :: 45 :: rest => some rest
  | 45 :: b :: rest => some (b :: rest)
  | _ => none

/-- Switch an option on or off. -/
def give (o : Options) (name : Bytes) (f : Options → Bool → Options) : Option Bytes → Except Stop Options
  | none => .ok (f o true)
  | some text =>
    match boolean? text with
    | some b => .ok (f o b)
    | none => .error (.fault (.boolean text name))

/-- Give a value to an option. -/
def giveValue (o : Options) (name text : Bytes) : Kind → Except Stop Options
  | .switch _ => .ok o
  | .text f => .ok (f o text)
  | .integer f =>
    match Numeral.integer text with
    | .ok n => .ok (f o n)
    | .error e => .error (.fault (.value text name e))

/-- The options in arguments, after those in `o`. They end before the first argument that is none, or
after two hyphens alone. -/
def parseFrom (o : Options) (arguments : List Bytes) : Except Stop Options :=
  match arguments with
  | [] => .ok o
  | argument :: rest =>
    match body? argument with
    | none => .ok { o with arguments := argument :: rest }
    | some body =>
      if argument = [45, 45] then .ok { o with arguments := rest }
      else if body = [] ∨ body.head? = some 45 ∨ body.head? = some 61 then
        .error (.fault (.malformed argument))
      else
        let (name, value) := splitValue body
        match kind? name, value with
        | none, _ =>
          if name = Bytes.ofString "help" ∨ name = Bytes.ofString "h" then .error .help
          else .error (.fault (.undefined name))
        | some (.switch f), value =>
          match o.give name f value with
          | .ok o => parseFrom o rest
          | .error e => .error e
        | some kind, some text =>
          match o.giveValue name text kind with
          | .ok o => parseFrom o rest
          | .error e => .error e
        | some kind, none =>
          match rest with
          | [] => .error (.fault (.needsArgument name))
          | text :: rest =>
            match o.giveValue name text kind with
            | .ok o => parseFrom o rest
            | .error e => .error e

/-- The options in the arguments of the command. -/
def parse (arguments : List Bytes) : Except Stop Options := parseFrom default arguments

end Options

namespace Command

/-- How to use the command. -/
def usage : String :=
  "Usage: monkey [options] [file]\n\n"
    ++ "Runs a Monkey program. With no file and no -e, starts a REPL.\n\n"
    ++ "Options:\n"
    ++ "  -config string\n    \tLoad VM and log settings from a .toml or .yaml file\n"
    ++ "  -dis\n    \tPrint the bytecode listing instead of running\n"
    ++ "  -e string\n    \tEvaluate an expression and print its value\n"
    ++ "  -stats\n    \tPrint execution counters after each run\n"
    ++ "  -trace\n    \tTrace every dispatched instruction to stderr\n"
    ++ "  -v int\n    \tLog verbosity (0 quiet, 1 info, 2 debug)\n"
    ++ "\nExamples:\n"
    ++ "  monkey                       # Start REPL\n"
    ++ "  monkey fib.mk                # Run a file\n"
    ++ "  monkey -e 'len(\"abc\")'        # Evaluate one expression\n"
    ++ "  monkey -dis fib.mk           # Show the compiled bytecode\n"
    ++ "  monkey -config monkey.toml   # Size the VM from a config file\n"

/-- What a command writes, and its exit code. -/
structure Result where
  code : Nat
  output : Bytes
  errors : Bytes
  deriving DecidableEq, Repr

/-- What is said of something that keeps the command from running. -/
def failure (message : Bytes) : Result := ⟨1, [], "Error: " ++ message ++ "\n"⟩

/-- What a command that does not start writes. -/
def stopped : Options.Stop → Result
  | .help => ⟨0, [], usage⟩
  | .fault e => ⟨2, [], e.message ++ "\n" ++ usage⟩

/-- Evaluate a source. The value of an expression is written; of a file only one that reports a misuse. -/
def evaluate (fuel : Nat) (o : Options) (s : Session) (source : Bytes) (shown : Bool) : Result :=
  let (reply, s) := s.eval fuel source
  let notes := reply.trace.flatMap TraceEvent.line ++ (if o.stats then s.stats.line else [])
  match reply.result with
  | .error e => ⟨1, reply.output, notes ++ e.line⟩
  | .ok v =>
    ⟨if v.isError then 1 else 0,
      reply.output ++ (if shown || v.isError then v.inspect ++ "\n" else []), notes⟩

/-- Write the listing of a source. -/
def list (s : Session) (source : Bytes) : Result :=
  match s.listing source with
  | .ok text => ⟨0, text, []⟩
  | .error e => ⟨1, [], e.line⟩

/-- List or evaluate a source. -/
def handle (fuel : Nat) (o : Options) (s : Session) (source : Bytes) (shown : Bool) : Result :=
  if o.listing then list s source else evaluate fuel o s source shown

/-- The settings that the options ask for. -/
def settings (read : Bytes → Except FileError Bytes) (o : Options) : Except Config.LoadError Config := do
  let c ← if o.config = [] then pure .default else Config.load read o.config
  pure (if o.verbosity = 0 then c else { c with verbosity := o.verbosity })

/-- Run the command with the options in a session. -/
def perform (fuel : Nat) (read : Bytes → Except FileError Bytes) (input : Bytes) (o : Options)
    (s : Session) : Result :=
  if o.expression ≠ [] then handle fuel o s o.expression true
  else
    match o.arguments with
    | name :: _ =>
      match read name with
      | .ok source => handle fuel o s source false
      | .error e => failure (e.message name)
    | [] =>
      let a := Repl.run fuel false o.stats s input
      ⟨0, a.text, a.trace⟩

/-- Run the command. Each source may execute at most `fuel` instructions. -/
def run (fuel : Nat) (read : Bytes → Except FileError Bytes) (input : Bytes) (arguments : List Bytes) :
    Result :=
  match Options.parse arguments with
  | .error stop => stopped stop
  | .ok o =>
    match settings read o with
    | .error e => failure e.message
    | .ok c => perform fuel read input o (.new c o.trace)

end Command

end StackScript

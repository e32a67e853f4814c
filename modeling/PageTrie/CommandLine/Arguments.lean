import PageTrie.Config

/-! The arguments of the command line. Options of the program stand before the command's
name, options of the command behind it; a dash begins an option unless `--` came before. -/
namespace PageTrie.CommandLine

inductive Command where
  | get (key : String)
  | put (key value : String) (replace : Bool)
  | del (key : String)
  | keys
  | dump
  | stat
  deriving DecidableEq, Repr

structure Invocation where
  db : String
  noWait : Bool
  command : Command
  deriving DecidableEq, Repr

inductive Request where
  | run (invocation : Invocation)
  | help
  | version
  | refused
  deriving DecidableEq, Repr

inductive Argument where
  /-- `--`: everything behind it is positional. -/
  | terminator
  /-- `--name` or `--name=value`. -/
  | long (name : String) (value : Option String)
  /-- `-abc`: single letters, the last of which may go on with a value. -/
  | short (letters : List Char)
  | positional (text : String)
  deriving DecidableEq, Repr

namespace Argument

def ofText (text : String) : Argument :=
  match text.toList with
  | ['-', '-'] => .terminator
  | '-' :: '-' :: rest =>
    let name := rest.takeWhile (· != '=')
    let value := (rest.drop name.length).tail?
    .long (String.ofList name) (value.map String.ofList)
  | '-' :: c :: rest => .short (c :: rest)
  | _ => .positional text

end Argument

inductive CommandName where
  | get
  | put
  | del
  | keys
  | dump
  | stat
  deriving DecidableEq, Repr

namespace CommandName

def ofText? : String → Option CommandName
  | "get" => some get
  | "put" => some put
  | "del" => some del
  | "keys" => some keys
  | "dump" => some dump
  | "stat" => some stat
  | _ => none

def arity : CommandName → Nat
  | get | del => 1
  | put => 2
  | keys | dump | stat => 0

def command? : CommandName → List String → (replace : Bool) → Option Command
  | get, [key], _ => some (.get key)
  | put, [key, value], replace => some (.put key value replace)
  | del, [key], _ => some (.del key)
  | keys, [], _ => some .keys
  | dump, [], _ => some .dump
  | stat, [], _ => some .stat
  | _, _, _ => none

end CommandName

structure CommandState where
  name : CommandName
  positionals : List String
  replace : Bool

inductive Progress (α : Type) where
  | on (state : α)
  | answer (request : Request)

namespace CommandState

def positional (state : CommandState) (text : String) : Progress CommandState :=
  if state.positionals.length < state.name.arity then
    .on { state with positionals := state.positionals ++ [text] }
  else .answer .refused

def replaceFlag (state : CommandState) : Progress CommandState :=
  if state.name = .put && !state.replace then .on { state with replace := true }
  else .answer .refused

def shorts (state : CommandState) : List Char → Progress CommandState
  | [] => .on state
  | 'h' :: _ => .answer .help
  | 'r' :: rest =>
    match state.replaceFlag with
    | .on state' => state'.shorts rest
    | .answer request => .answer request
  | _ :: _ => .answer .refused

def argument (state : CommandState) : Argument → Progress CommandState
  | .positional text => state.positional text
  | .long "help" none => .answer .help
  | .long "replace" none => state.replaceFlag
  | .short letters => state.shorts letters
  | _ => .answer .refused

def trailing (state : CommandState) : List String → Progress CommandState
  | [] => .on state
  | text :: rest =>
    match state.positional text with
    | .on state' => state'.trailing rest
    | .answer request => .answer request

def arguments (state : CommandState) : List String → Progress CommandState
  | [] => .on state
  | text :: rest =>
    match Argument.ofText text with
    | .terminator => state.trailing rest
    | argument =>
      match state.argument argument with
      | .on state' => state'.arguments rest
      | .answer request => .answer request

end CommandState

/-- What `help` leads to. It takes one topic at most, since commands have none below them. -/
def helpOn : List String → Request
  | [] => .help
  | [topic] => if topic == "help" || (CommandName.ofText? topic).isSome then .help else .refused
  | _ => .refused

structure ProgramState where
  db : Option String
  noWait : Bool

namespace ProgramState

def setDb (state : ProgramState) (value : String) : Progress ProgramState :=
  if state.db.isSome then .answer .refused else .on { state with db := some value }

def setNoWait (state : ProgramState) : Progress ProgramState :=
  if state.noWait then .answer .refused else .on { state with noWait := true }

def runCommand (state : ProgramState) (name : CommandName) (rest : List String) : Request :=
  match CommandState.arguments ⟨name, [], false⟩ rest with
  | .answer request => request
  | .on command =>
    match name.command? command.positionals command.replace with
    | none => .refused
    | some command => .run ⟨state.db.getD ({} : Config).path, state.noWait, command⟩

def isValue (text : String) : Bool :=
  match Argument.ofText text with
  | .positional _ => true
  | _ => false

def arguments (state : ProgramState) : List String → Request
  | [] => .refused
  | text :: rest =>
    match Argument.ofText text with
    | .positional text =>
      match CommandName.ofText? text with
      | some name => state.runCommand name rest
      | none => if text == "help" then helpOn rest else .refused
    | .terminator => .refused
    | .long "help" none | .short ('h' :: _) => .help
    | .long "version" none | .short ('V' :: _) => .version
    | .long "no-wait" none =>
      match state.setNoWait with
      | .on state' => state'.arguments rest
      | .answer request => request
    | .long "db" (some value) =>
      match state.setDb value with
      | .on state' => state'.arguments rest
      | .answer request => request
    | .short ('d' :: c :: value) =>
      match state.setDb (String.ofList (if c = '=' then value else c :: value)) with
      | .on state' => state'.arguments rest
      | .answer request => request
    | .long "db" none | .short ['d'] =>
      match rest with
      | [] => .refused
      | value :: rest =>
        if isValue value then
          match state.setDb value with
          | .on state' => state'.arguments rest
          | .answer request => request
        else .refused
    | _ => .refused

end ProgramState

def parse (arguments : List String) : Request := ProgramState.arguments ⟨none, false⟩ arguments

end PageTrie.CommandLine

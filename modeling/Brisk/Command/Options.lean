import Brisk.Limits
import Brisk.Number.Integer

/-! # Arguments of the command

Arguments are taken from left to right. A value can follow its option as the next argument or be
attached to it, an option can be given once, and behind two dashes everything names a file. Asking
for the version is answered at once, unless something before it was wrong.
-/

namespace Brisk.Command

/-- What the command was asked to do. -/
structure Options where
  /-- The files to run, in their order. -/
  files : List String := []
  /-- The text to run instead of files. -/
  text : Option String := none
  /-- Whether trees are shown instead of being evaluated. -/
  showTree : Bool := false
  tokenLength : Option Nat := none
  nesting : Option Nat := none
  callDepth : Option Nat := none
  deriving DecidableEq, Repr

/-- What a list of arguments means. -/
inductive Invocation where
  | version
  | misused
  | run (options : Options)
  deriving DecidableEq, Repr

/-- The options that have a value. -/
inductive Setting where
  | text
  | tokenLength
  | nesting
  | callDepth
  deriving DecidableEq, Repr

/-- The option with a value that has a given long name. -/
def Setting.ofName? (name : String) : Option Setting :=
  if name = "eval" then some .text
  else if name = "max-token-length" then some .tokenLength
  else if name = "max-nesting" then some .nesting
  else if name = "max-call-depth" then some .callDepth
  else none

/-- The shapes of arguments. -/
inductive Argument where
  /-- Two dashes: options end here. -/
  | separator
  /-- Two dashes and a name, perhaps with a value attached by an equals sign. -/
  | long (name : String) (value : Option String)
  /-- A dash and characters. -/
  | short (cs : List Char)
  /-- Anything else, a lone dash included. -/
  | plain (s : String)
  deriving DecidableEq, Repr

/-- The shape of an argument. -/
def Argument.ofString (s : String) : Argument :=
  match s.toList with
  | '-' :: '-' :: [] => .separator
  | '-' :: '-' :: cs =>
    match cs.span (· != '=') with
    | (name, _ :: value) => .long (String.ofList name) (some (String.ofList value))
    | (name, []) => .long (String.ofList name) none
  | '-' :: c :: cs => .short (c :: cs)
  | _ => .plain s

/-- Reads a number of 64 bits, which may have a plus sign. -/
def size? (s : String) : Option Nat :=
  let digits := match s.toList with
    | '+' :: ds => ds
    | ds => ds
  (Integer.natural? digits).filter (· < Nat.pow 2 64)

namespace Options

/-- Fills in a number that must not be there yet. -/
def number? (there : Option Nat) (value : String) : Option (Option Nat) :=
  match there with
  | some _ => none
  | none => (size? value).map some

/-- Gives an option its value, unless it has one already or the value makes no sense. -/
def set? (options : Options) (setting : Setting) (value : String) : Option Options :=
  match setting with
  | .text => if options.text.isSome then none else some { options with text := some value }
  | .tokenLength => (number? options.tokenLength value).map ({ options with tokenLength := · })
  | .nesting => (number? options.nesting value).map ({ options with nesting := · })
  | .callDepth => (number? options.callDepth value).map ({ options with callDepth := · })

/-- Adds the name of a file, which must not be empty. -/
def addFile? (options : Options) (name : String) : Option Options :=
  if name = "" then none else some { options with files := options.files ++ [name] }

/-- What complete options mean: a text and files exclude each other. -/
def finish (options : Options) : Invocation :=
  if options.text.isSome && !options.files.isEmpty then .misused else .run options

/-- Takes arguments that all name files. -/
def takeFiles (options : Options) : List String → Invocation
  | [] => options.finish
  | name :: rest =>
    match options.addFile? name with
    | some options => options.takeFiles rest
    | none => .misused

/-- Takes arguments from left to right. -/
def take (options : Options) : List String → Invocation
  | [] => options.finish
  | argument :: rest =>
    -- The value of the setting is the next argument.
    let withNext (setting : Setting) : Invocation :=
      match rest with
      | [] => .misused
      | value :: rest =>
        match Argument.ofString value with
        | .plain value =>
          match options.set? setting value with
          | some options => options.take rest
          | none => .misused
        | _ => .misused
    let goOn (options : Option Options) : Invocation :=
      match options with
      | some options => options.take rest
      | none => .misused
    match Argument.ofString argument with
    | .separator => options.takeFiles rest
    | .plain name => goOn (options.addFile? name)
    | .long "version" none => .version
    | .long "dump-ast" none =>
      goOn (if options.showTree then none else some { options with showTree := true })
    | .long name value =>
      match Setting.ofName? name, value with
      | some setting, some value => goOn (options.set? setting value)
      | some setting, none => withNext setting
      | none, _ => .misused
    | .short ('V' :: _) => .version
    | .short ['e'] => withNext .text
    | .short ('e' :: '=' :: value) => goOn (options.set? .text (String.ofList value))
    | .short ('e' :: value) => goOn (options.set? .text (String.ofList value))
    | .short _ => .misused

/-- The limits on sources that the options ask for. -/
def limits (options : Options) : Limits :=
  let length := options.tokenLength.getD Limits.defaultLength
  { Limits.uniform length with nesting := options.nesting.getD Limits.defaultNesting }

end Options

/-- What the arguments of the command mean. -/
def Invocation.ofArguments (arguments : List String) : Invocation :=
  Options.take {} arguments

end Brisk.Command

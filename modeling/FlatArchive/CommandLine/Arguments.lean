import FlatArchive.FileSystem.Path
import FlatArchive.Text.Utf8

/-!
# Arguments

What the words of a command line ask for.  A word is a switch, a value, the two
dashes that make every later word a value, or nothing that is known.  Words are
bytes, since a path need not be text.

The words before the name of the command and the words behind it are two levels.
`--verbose` may stand on either, once on each; the other switches belong to
single commands.  `parse` answers `none` to a usage error.

How words are told apart is what the library `clap` documents: letters that stand
together behind one dash, the two dashes, switches before and behind values, and a
switch named twice being an error.  Its own texts, the help and the words of its
errors, are left out.
-/

namespace FlatArchive.CommandLine

/-- Something that is turned on by naming it. -/
inductive Switch
  | verbose
  | followLinks
  | json
  deriving DecidableEq, Repr

namespace Switch

/-- The name behind two dashes. -/
def long : Switch → String
  | .verbose => "verbose"
  | .followLinks => "follow-links"
  | .json => "json"

/-- The letter behind one dash. -/
def short? : Switch → Option Char
  | .verbose => some 'v'
  | .followLinks => some 'L'
  | .json => none

/-- All switches. -/
def all : List Switch := [.verbose, .followLinks, .json]

/-- The switch with a name. -/
def ofLong? (name : Bytes) : Option Switch :=
  all.find? fun s => Utf8.encode s.long = name

/-- The switch with a letter. -/
def ofShort? (letter : UInt8) : Option Switch :=
  all.find? fun s => s.short?.map (fun c => Utf8.encode (String.singleton c)) = some [letter]

end Switch

/-- What one word is. -/
inductive Word
  /-- One switch by name, or one or more by letter. -/
  | switches (named : List Switch)
  | value
  /-- Two dashes alone. -/
  | onlyValues
  | unknown
  deriving DecidableEq, Repr

/-- The dash in front of switches. -/
def dash : UInt8 := 0x2D

/-- What a word of letters behind one dash is. -/
def Word.ofLetters (letters : Bytes) : Word :=
  match letters.mapM Switch.ofShort? with
  | some named => .switches named
  | none => .unknown

/-- What a name behind two dashes is. -/
def Word.ofName (name : Bytes) : Word :=
  match Switch.ofLong? name with
  | some s => .switches [s]
  | none => .unknown

/-- Tells what a word is.  One dash alone is a value. -/
def Word.ofBytes (word : Bytes) : Word :=
  if word = [dash, dash] then .onlyValues
  else if word.take 2 = [dash, dash] then .ofName (word.drop 2)
  else if word.take 1 = [dash] ∧ word ≠ [dash] then .ofLetters (word.drop 1)
  else .value

/-- The switches that were named and the values, in order. -/
structure Arguments where
  named : List Switch := []
  values : List PathText := []
  deriving DecidableEq, Repr

/-- Adds switches to those that were named.  Each has to be one that may be
named here, and none may be named twice. -/
def addSwitches (allowed : List Switch) (named : List Switch) :
    List Switch → Option (List Switch)
  | [] => some named
  | s :: rest =>
    if s ∈ allowed ∧ s ∉ named then addSwitches allowed (named ++ [s]) rest else none

/-- Reads the words behind the name of a command. -/
def readArguments (allowed : List Switch) (soFar : Arguments) :
    List Bytes → Option Arguments
  | [] => some soFar
  | word :: rest =>
    match Word.ofBytes word with
    | .onlyValues => some { soFar with values := soFar.values ++ rest }
    | .value =>
      readArguments allowed { soFar with values := soFar.values ++ [word] } rest
    | .switches named =>
      match addSwitches allowed soFar.named named with
      | some named => readArguments allowed { soFar with named := named } rest
      | none => none
    | .unknown => none

/-- What a command line asks for. -/
inductive Command
  /-- Pack a directory into an archive. -/
  | pack (directory archive : PathText) (follow : Bool)
  /-- Unpack an archive into a directory. -/
  | unpack (archive directory : PathText)
  /-- Take a directory through the round trip. -/
  | test (directory : PathText) (follow : Bool)
  /-- Show what is in an archive. -/
  | list (archive : PathText) (json : Bool)
  deriving DecidableEq, Repr

/-- A command, and whether to tell of details. -/
structure Invocation where
  verbose : Bool
  command : Command
  deriving DecidableEq, Repr

/-- The command of a name, its switches and its values.  The values have to be
as many as the command takes, and none may be empty. -/
def Command.ofArguments? (name : String) (words : List Bytes) : Option (Bool × Command) :=
  let read (allowed : List Switch) : Option Arguments :=
    match readArguments (.verbose :: allowed) {} words with
    | some arguments => if [] ∈ arguments.values then none else some arguments
    | none => none
  let result (arguments : Arguments) (command : Command) : Option (Bool × Command) :=
    some (arguments.named.contains .verbose, command)
  match name with
  | "enc" => (read [.followLinks]).bind fun a => match a.values with
    | [directory, archive] =>
      result a (.pack directory archive (a.named.contains .followLinks))
    | _ => none
  | "dec" => (read []).bind fun a => match a.values with
    | [archive, directory] => result a (.unpack archive directory)
    | _ => none
  | "test" => (read [.followLinks]).bind fun a => match a.values with
    | [directory] => result a (.test directory (a.named.contains .followLinks))
    | _ => none
  | "list" => (read [.json]).bind fun a => match a.values with
    | [archive] => result a (.list archive (a.named.contains .json))
    | _ => none
  | _ => none

/-- Reads the words up to the name of the command, and the command. -/
def parseFrom (named : List Switch) : List Bytes → Option Invocation
  | [] => none
  | word :: rest =>
    match Word.ofBytes word with
    | .switches more =>
      match addSwitches [.verbose] named more with
      | some named => parseFrom named rest
      | none => none
    | .value =>
      match Utf8.decode word with
      | .error _ => none
      | .ok name => (Command.ofArguments? name rest).map fun (verbose, command) =>
        ⟨named.contains .verbose || verbose, command⟩
    | .onlyValues | .unknown => none

/-- What the words of a command line ask for, if they make sense. -/
def parse (words : List Bytes) : Option Invocation :=
  parseFrom [] words

end FlatArchive.CommandLine

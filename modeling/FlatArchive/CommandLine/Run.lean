import FlatArchive.CommandLine.Arguments
import FlatArchive.CommandLine.Listing
import FlatArchive.Transfer.Pack

/-!
# Running commands

A command works on a tree of files and ends with an exit code and two texts: on
standard output the answer, on standard error the log and, if the command
failed, the reason.  A command that fails answers nothing.
-/

namespace FlatArchive.CommandLine

/-- How a command ended. -/
structure Result where
  files : FileSystem
  code : Nat
  stdout : String
  stderr : String

/-- The log, as far as it is shown, and the reason of a failure. -/
def report (verbose : Bool) (log : List Log.Line) (failure : Option String) : String :=
  String.join ((log.filter (Log.Line.shown verbose)).map Log.Line.render)
    ++ match failure with
      | some reason => s!"error: {reason}\n"
      | none => ""

/-- The end of a command that ran on `files` and logged `log`. -/
def finish (verbose : Bool) (files : FileSystem) (log : List Log.Line) :
    Except String String → Result
  | .ok stdout => ⟨files, 0, stdout, report verbose log none⟩
  | .error reason => ⟨files, 1, "", report verbose log (some reason)⟩

/-- Shows what is in an archive file. -/
def list (files : FileSystem) (archive : PathText) (json : Bool) :
    List Log.Line × Except String String :=
  match files.read archive with
  | .error e => ([], .error e.message)
  | .ok bytes =>
    match Reader.ofBytes bytes with
    | .error e => ([], .error e.message)
    | .ok reader =>
      match Listing.ofReader reader with
      | .error e => (reader.notices, .error e.message)
      | .ok listing =>
        (reader.notices, .ok (if json then listing.renderJson
          else listing.renderTable (Utf8.lossy archive)))

/-- Runs a command. -/
def Invocation.run (invocation : Invocation) (files : FileSystem) : Result :=
  let finish := finish invocation.verbose
  match invocation.command with
  | .pack directory archive follow =>
    let outcome := files.pack follow directory archive
    finish outcome.files outcome.log <| match outcome.result with
      | .error e => .error e.message
      | .ok _ => .ok <| s!"Directory '{Utf8.lossy directory}' archived successfully "
          ++ s!"to '{Utf8.lossy archive}'.\n"
  | .unpack archive directory =>
    let outcome := files.unpack archive directory
    finish outcome.files outcome.log <| match outcome.result with
      | .error e => .error e.message
      | .ok _ => .ok <| s!"Archive '{Utf8.lossy archive}' extracted successfully "
          ++ s!"to '{Utf8.lossy directory}'.\n"
  | .test directory follow =>
    let (log, result) := files.selfTest follow directory
    finish files log <| match result with
      | .error e => .error e.message
      | .ok _ => .ok "Archive test passed successfully!\n"
  | .list archive json =>
    let (log, result) := list files archive json
    finish files log result

/-- The forms of a command line. -/
def usage : String :=
  "usage: tatix-ar [-v] enc [-L] DIRECTORY ARCHIVE\n"
    ++ "       tatix-ar [-v] dec ARCHIVE DIRECTORY\n"
    ++ "       tatix-ar [-v] test [-L] DIRECTORY\n"
    ++ "       tatix-ar [-v] list [--json] ARCHIVE\n"

/-- Runs a command line, or says how one is written. -/
def run (files : FileSystem) (words : List Bytes) : Result :=
  match parse words with
  | none => ⟨files, 2, "", usage⟩
  | some invocation => invocation.run files

end FlatArchive.CommandLine

import MarkupFormat.Bytes.Blank
import MarkupFormat.Expression.Formatter
import MarkupFormat.Log.Level

namespace MarkupFormat.Expression

open Bytes

structure ScratchFiles where
  input : Bytes
  output : Bytes
  errors : Bytes
  deriving DecidableEq, Repr

structure Completion where
  status : Int
  output : Bytes
  errors : Bytes
  deriving DecidableEq, Repr

-- `run` takes a command line and the text of the input file to the status that the system reports
-- and to the texts of the other two files, which are empty if they are missing.
structure Runner where
  files : ScratchFiles
  canCreate : Bool
  run : Bytes → Bytes → Completion

def inQuotes (t : Bytes) : Bytes :=
  Byte.quote :: t ++ [Byte.quote]

def commandLine (files : ScratchFiles) (command : Bytes) : Bytes :=
  command ++ ascii " < " ++ inQuotes files.input ++ ascii " > " ++ inQuotes files.output
    ++ ascii " 2> " ++ inQuotes files.errors

-- The system is handed a string that ends before its first zero byte.
def runCommand (runner : Runner) (command raw : Bytes) : Completion :=
  runner.run ((commandLine runner.files command).takeWhile (· ≠ 0)) raw

def failureMessage (command : Bytes) (c : Completion) : Bytes :=
  let said := trim c.errors
  if said = [] then ascii "`" ++ command ++ ascii "` exited with status " ++ decimalInt c.status
  else said

def byCommand (runner : Runner) (command : Bytes) : Formatter := fun raw =>
  if runner.canCreate then
    let c := runCommand runner command raw
    if c.status = 0 then .ok (trim c.output) else .error (failureMessage command c)
  else .error (ascii "cannot create temporary file " ++ runner.files.input)

def commandTopic : Bytes :=
  ascii "expr"

def rejectionTrace (message : Bytes) : Log.Entry :=
  ⟨.debug, commandTopic, ascii "formatter rejected snippet: " ++ message⟩

def commandTrace (runner : Runner) (command raw : Bytes) : List Log.Entry :=
  if runner.canCreate then
    ⟨.trace, commandTopic, ascii "running: " ++ commandLine runner.files command⟩ ::
      match byCommand runner command raw with
      | .ok _ => []
      | .error message => [rejectionTrace message]
  else []

end MarkupFormat.Expression

import Purgery.Core.Destination

namespace Purgery

inductive TransformKind where
  | subprocess
deriving DecidableEq

structure TransformDefinition where
  name : String
  kind : TransformKind
  program : String
  args : List String
  expectedOutputs : List String
deriving DecidableEq

def isInfix (needle : List Char) : List Char → Bool
  | [] => needle.isEmpty
  | c :: cs => needle.isPrefixOf (c :: cs) || isInfix needle cs

/-- `split(sep).any(|c| c == "..")` -/
def hasDotDotSegment (sep : Char) (cs : List Char) : Bool :=
  (cs.splitOn sep).contains ['.', '.']

def validateExpectedOutputName (name : String) : Except String Unit :=
  if name.isEmpty then .error "expected output name is empty"
  else if name == "." || name == ".." then
    .error ("expected output name must not be '" ++ name ++ "'")
  else if hasDotDotSegment '/' name.toList || hasDotDotSegment '\\' name.toList then
    .error "expected output path must not contain '..' components"
  else if isInfix "\x7binput\x7d".toList name.toList ||
      isInfix "\x7bparent\x7d".toList name.toList then
    .error ("expected output name must not use \x7b\x7binput\x7d\x7d or \x7b\x7bparent\x7d\x7d " ++
      "placeholders; only \x7b\x7bfile_name\x7d\x7d, \x7b\x7bfile_stem\x7d\x7d, and " ++
      "\x7b\x7btarget_path\x7d\x7d, \x7b\x7btarget_directory\x7d\x7d, " ++
      "\x7b\x7btarget_file_name\x7d\x7d, and \x7b\x7btarget_file_stem\x7d\x7d are allowed")
  else .ok ()

def validateTransformDefinition (d : TransformDefinition) : Except String Unit := do
  if d.program.isEmpty then throw "program is empty"
  for output in d.expectedOutputs do
    match validateExpectedOutputName output with
    | .ok _ => pure ()
    | .error e => throw ("expected_output \"" ++ output ++ "\": " ++ e)

namespace TransformDefinition

def placeholder (workPath : String) (target : ResolvedDestinationPlan) (token : String) :
    Option String :=
  if token == "\x7binput\x7d" then some workPath
  else if token == "\x7bparent\x7d" then some ((Path.parent workPath).getD "")
  else if token == "\x7bfile_name\x7d" then some ((Path.fileName workPath).getD "")
  else if token == "\x7bfile_stem\x7d" then some ((Path.fileStem workPath).getD "")
  else if token == "\x7btarget_path\x7d" then some target.targetPath
  else if token == "\x7btarget_directory\x7d" then some target.targetDirectory
  else if token == "\x7btarget_file_name\x7d" then
    some ((Path.fileName target.targetPath).getD "")
  else if token == "\x7btarget_file_stem\x7d" then
    some ((Path.fileStem target.targetPath).getD "")
  else none

/-- Left to right; a replacement is not expanded again. -/
def expandFrom (lookup : String → Option String) : Nat → List Char → List Char
  | 0, cs => cs
  | fuel + 1, cs =>
    let before := cs.takeWhile (· != '\x7b')
    match cs.dropWhile (· != '\x7b') with
    | [] => cs
    | candidate =>
      match candidate.dropWhile (· != '\x7d') with
      | [] => before ++ candidate
      | _ :: remaining =>
        let token := String.ofList (candidate.takeWhile (· != '\x7d') ++ ['\x7d'])
        before ++ ((lookup token).getD token).toList ++ expandFrom lookup fuel remaining

def expandPlaceholders (workPath : String) (target : ResolvedDestinationPlan)
    (template : String) : String :=
  String.ofList (expandFrom (placeholder workPath target) template.toList.length template.toList)

def buildArgsForTarget (d : TransformDefinition) (workPath : String)
    (target : ResolvedDestinationPlan) : List String :=
  d.args.map (expandPlaceholders workPath target)

def resolveExpectedOutputsForTarget (d : TransformDefinition) (workPath : String)
    (target : ResolvedDestinationPlan) : Except String (List String) :=
  d.expectedOutputs.mapM fun pattern => do
    validateExpectedOutputName pattern
    let expanded := expandPlaceholders workPath target pattern
    return if Path.isAbsolute expanded then expanded
      else Path.join target.targetDirectory expanded

end TransformDefinition

end Purgery

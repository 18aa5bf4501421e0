import Mathlib.Data.List.Basic

namespace Purgery.Path

/-! Lexical paths: the operations of a UTF-8 path that the program uses. -/

def splitSlash : List Char → List (List Char)
  | [] => [[]]
  | '/' :: cs => [] :: splitSlash cs
  | c :: cs =>
    match splitSlash cs with
    | [] => [[c]]
    | s :: rest => (c :: s) :: rest

def isAbsolute (p : String) : Bool := p.toList.head? == some '/'

/-- The components after the root: empty and `.` segments are dropped, except
a `.` that begins a relative path. -/
def components (p : String) : List String :=
  let segments := (splitSlash p.toList).map String.ofList
  let kept := segments.filter (fun s => s != "" && s != ".")
  if !isAbsolute p && segments.head? == some "." then "." :: kept else kept

/-- Paths are compared by their components. -/
def same (p q : String) : Bool := isAbsolute p == isAbsolute q && components p == components q

def joinSlash : List String → String
  | [] => ""
  | [s] => s
  | s :: rest => s ++ "/" ++ joinSlash rest

def join (base child : String) : String :=
  if isAbsolute child then child
  else if base.toList.getLast? == some '/' || base == "" then base ++ child
  else base ++ "/" ++ child

def parent (p : String) : Option String :=
  match (components p).reverse with
  | [] => none
  | _ :: rest =>
    some ((if isAbsolute p then "/" else "") ++ joinSlash rest.reverse)

def fileName (p : String) : Option String :=
  match (components p).getLast? with
  | some ".." => none
  | some "." => none
  | other => other

/-- The part of the last component before its last dot. -/
def fileStem (p : String) : Option String :=
  (fileName p).map fun name =>
    let rev := name.toList.reverse
    match rev.dropWhile (· != '.') with
    | [] => name
    | [_] => name
    | _ :: stem => String.ofList stem.reverse

end Purgery.Path

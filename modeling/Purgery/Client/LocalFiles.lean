import Mathlib.Data.List.Dedup
import Purgery.Client.Classify
import Purgery.Interleaving.Alone
import Purgery.Server.Contents

namespace Purgery.Client

open Purgery.Path
open Purgery.Interleaving
open Purgery.Server (FileKind IoError)

/-! The local files of a client, and the calls on them. -/

/-- What is at a path; a time is in nanoseconds since the epoch. -/
inductive LocalNode where
  | dir
  | file (bytes : List UInt8) (modified : Int)
  | symlink (target : String)
  | other
deriving DecidableEq

/-- The metadata that the program looks at; a length and a time only of files. -/
structure LocalMeta where
  kind : FileKind
  len : Nat
  modified : Int
deriving DecidableEq

def LocalNode.metadata : LocalNode → LocalMeta
  | .dir => ⟨.directory, 0, 0⟩
  | .file bytes modified => ⟨.regularFile, bytes.length, modified⟩
  | .symlink _ => ⟨.symlink, 0, 0⟩
  | .other => ⟨.other, 0, 0⟩

/-- No path leads through it. -/
def LocalNode.blocks : LocalNode → Bool
  | .file _ _ | .other => true
  | .dir | .symlink _ => false

/-- `as_nanos() as i64`; a time before the epoch counts as the epoch. -/
def mtimeNs (modified : Int) : Int := if modified < 0 then 0 else modified.bmod (2 ^ 64)

/-- A path by its components, as the system follows it. -/
abbrev Location := Bool × List String

def locate (p : String) : Location := (isAbsolute p, components p)

abbrev LocalTree := List (Location × LocalNode)

namespace LocalTree

variable (t : LocalTree) (p : String)

def find : Option LocalNode := t.lookup (locate p)

def erase : LocalTree := t.filter fun e => e.1 != locate p

/-- The names in a directory. -/
def children : List String :=
  t.filterMap fun e =>
    if e.1.1 = isAbsolute p ∧ e.1.2.dropLast = components p then e.1.2.getLast? else none

/-- The names that lead from a directory to what is below it. -/
def below : List (List String) :=
  t.filterMap fun e =>
    if e.1.1 = isAbsolute p ∧ components p <+: e.1.2 ∧ e.1.2 ≠ components p then
      some (e.1.2.drop (components p).length)
    else none

/-- Nothing but directories is on the way from a directory to what is below it. -/
def direct (ns : List String) : Bool :=
  (List.range ns.length).all fun i =>
    t.lookup (isAbsolute p, components p ++ ns.take i) == some .dir

/-- Why a path leads to nothing: what should be a directory is none, or there is nothing. -/
def absent : IoError :=
  if (List.range (components p).length).any fun i =>
      (t.lookup (isAbsolute p, (components p).take i)).any LocalNode.blocks
  then .other "Not a directory (os error 20)" else .notFound

end LocalTree

/-- A listing in the order that `order` gives, and complete whatever it is. -/
def arrange {α : Type} [DecidableEq α] (order xs : List α) : List α :=
  (order.filter fun x => xs.contains x).dedup ++ xs.filter fun x => !order.contains x

theorem arrange_perm {α : Type} [DecidableEq α] (order : List α) {xs : List α} (h : xs.Nodup) :
    (arrange order xs).Perm xs := by
  have hnodup : (arrange order xs).Nodup := by
    refine List.nodup_append.2 ⟨List.nodup_dedup _, h.filter _, fun a ha b hb heq => ?_⟩
    subst heq
    have hin := (List.mem_filter.1 (List.mem_dedup.1 ha)).1
    simpa [hin] using (List.mem_filter.1 hb).2
  refine (List.perm_ext_iff_of_nodup hnodup h).2 fun a => ?_
  rw [arrange, List.mem_append, List.mem_dedup, List.mem_filter, List.mem_filter]
  by_cases ha : a ∈ order <;> simp [ha]

/-- The calls on local files. -/
inductive FileOp where
  | symlinkMetadata (path : String)
  | metadata (path : String)
  | readLink (path : String)
  | sha256 (path : String)
  | walk (path : String)
  | readDir (path : String)
  | removeFile (path : String)
  | removeDir (path : String)

namespace FileOp

abbrev Res : FileOp → Type
  | symlinkMetadata _ | metadata _ => Except IoError LocalMeta
  | readLink _ | sha256 _ => Except IoError String
  | walk _ => List String
  | readDir _ => Except IoError (List String)
  | removeFile _ | removeDir _ => Except IoError Unit

/-- What the environment settles, beside whether the call fails: what a symlink
leads to, the order of a listing, and what a walk leaves out because of errors. -/
abbrev Extra : FileOp → Type
  | metadata _ => Except IoError LocalMeta
  | sha256 _ => Except IoError String
  | walk _ => List (List String) × (List String → Bool)
  | readDir _ => List String × Except IoError (List String)
  | _ => Unit

abbrev Choice (o : FileOp) : Type := Option String × o.Extra

def failed (o : FileOp) (e : IoError) : o.Res :=
  match o with
  | walk _ => []
  | symlinkMetadata _ | metadata _ | readLink _ | sha256 _ | readDir _ | removeFile _
  | removeDir _ => .error e

def isDirectory : IoError := .other "Is a directory (os error 21)"

def notDirectory : IoError := .other "Not a directory (os error 20)"

def notEmpty : IoError := .other "Directory not empty (os error 39)"

def invalidArgument : IoError := .other "Invalid argument (os error 22)"

/-- The call as it goes when it does not fail for reasons of its own. -/
def run (sha : List UInt8 → String) (o : FileOp) (x : o.Extra) (t : LocalTree) :
    o.Res × LocalTree :=
  match o, x with
  | symlinkMetadata p, _ =>
    match t.find p with
    | none => (.error (t.absent p), t)
    | some n => (.ok n.metadata, t)
  | metadata p, followed =>
    match t.find p with
    | none => (.error (t.absent p), t)
    | some (.symlink _) => (followed, t)
    | some n => (.ok n.metadata, t)
  | readLink p, _ =>
    match t.find p with
    | none => (.error (t.absent p), t)
    | some (.symlink target) => (.ok target, t)
    | some _ => (.error invalidArgument, t)
  | sha256 p, followed =>
    match t.find p with
    | none => (.error (t.absent p), t)
    | some (.file bytes _) => (.ok (sha bytes), t)
    | some .dir => (.error isDirectory, t)
    | some _ => (followed, t)
  | walk p, (order, keep) =>
    let found := (t.below p).filter fun ns => t.direct p ns && keep ns
    ((arrange order found).map fun ns => join p (joinSlash ns), t)
  | readDir p, (order, followed) =>
    match t.find p with
    | none => (.error (t.absent p), t)
    | some .dir => (.ok (arrange order (t.children p)), t)
    | some (.symlink _) => (followed, t)
    | some _ => (.error notDirectory, t)
  | removeFile p, _ =>
    match t.find p with
    | none => (.error (t.absent p), t)
    | some .dir => (.error isDirectory, t)
    | some _ => (.ok (), t.erase p)
  | removeDir p, _ =>
    if lastPart (DestinationPath.trimEndSlashes p.toList) = ['.'] then (.error invalidArgument, t)
    else
      match t.find p with
      | none => (.error (t.absent p), t)
      | some .dir => if t.children p = [] then (.ok (), t.erase p) else (.error notEmpty, t)
      | some _ => (.error notDirectory, t)

/-- One call: it fails if the environment says so. -/
def step (sha : List UInt8 → String) (o : FileOp) (x : o.Choice) (t : LocalTree) :
    o.Res × LocalTree :=
  match x.1 with
  | some message => (o.failed (.other message), t)
  | none => o.run sha x.2 t

end FileOp

abbrev FileCall := Prog FileOp FileOp.Res

def file (o : FileOp) : FileCall o.Res := Prog.perform o

end Purgery.Client

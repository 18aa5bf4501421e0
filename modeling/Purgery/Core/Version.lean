import Mathlib.Algebra.Group.Nat.Defs
import Mathlib.Data.List.Basic

namespace Purgery

def purgeryVersion : String := "0.1.0"

def protocolVersion : Nat := 3

structure PurgeryVersion where
  major : Nat
  minor : Nat
  patch : Nat
deriving DecidableEq

inductive VersionError where
  | invalidFormat (input : String)
  | incompatible (context producer current : String)
deriving DecidableEq

def VersionError.message : VersionError → String
  | .invalidFormat s => "invalid version string: " ++ s
  | .incompatible context producer current =>
    "incompatible Purgery version in " ++ context ++ ": producer " ++ producer ++ ", current " ++
      current ++ "; major/minor versions must match"

def currentPurgeryVersion : String := purgeryVersion

def digitsValue : List Char → Option Nat
  | [] => some 0
  | c :: cs =>
    if c.isDigit then (digitsValue cs).map (fun n => (c.toNat - 48) * 10 ^ cs.length + n)
    else none

/-- `str::parse::<u64>` on text without a sign. -/
def parseU64 (cs : List Char) : Option Nat :=
  if cs.isEmpty then none else (digitsValue cs).filter (· < 2 ^ 64)

/-- `splitn(3, '.')`: the third part keeps the remaining dots. -/
def splitThree (cs : List Char) : Option (List Char × List Char × List Char) :=
  let major := cs.takeWhile (· != '.')
  match cs.dropWhile (· != '.') with
  | [] => none
  | _ :: rest =>
    let minor := rest.takeWhile (· != '.')
    match rest.dropWhile (· != '.') with
    | [] => none
    | _ :: patch => some (major, minor, patch)

def parsePurgeryVersion (input : String) : Except VersionError PurgeryVersion :=
  if input.isEmpty then .error (.invalidFormat "empty string")
  else
    let withoutBuild := input.toList.takeWhile (· != '+')
    let withoutPrerelease := withoutBuild.takeWhile (· != '-')
    match splitThree withoutPrerelease with
    | none => .error (.invalidFormat input)
    | some (major, minor, patch) =>
      match parseU64 major, parseU64 minor, parseU64 patch with
      | some major, some minor, some patch => .ok ⟨major, minor, patch⟩
      | _, _, _ => .error (.invalidFormat input)

def versionsCompatible (producer consumer : String) : Except VersionError Bool := do
  let p ← parsePurgeryVersion producer
  let c ← parsePurgeryVersion consumer
  return p.major == c.major && p.minor == c.minor

def requireCompatiblePurgeryVersion (producer context : String) : Except VersionError Unit := do
  if ← versionsCompatible producer currentPurgeryVersion then
    return ()
  else
    throw (.incompatible context producer currentPurgeryVersion)

theorem requireCompatible_current (context : String) :
    requireCompatiblePurgeryVersion currentPurgeryVersion context = .ok () := by
  have h : versionsCompatible currentPurgeryVersion currentPurgeryVersion = .ok true := by decide
  simp only [requireCompatiblePurgeryVersion, h]
  rfl

end Purgery

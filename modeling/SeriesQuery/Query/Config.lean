/-
  How a query is executed, and the JSON text that says so.

  Everything has a default.  Text is read strictly where the configuration looks at it, and loosely
  elsewhere: members that it does not know are checked for their grammar only.  Besides an object, a
  list of the values in order is taken, for the configuration as well as for the mode.
-/
import SeriesQuery.Json.Reader

namespace SeriesQuery

/-- How the shards of a query are worked on. -/
inductive Mode
  /-- One after the other. -/
  | sequential
  /-- Several at a time, on as many threads as are given, or as the machine offers. -/
  | parallel (threads : Option Nat)
  deriving Repr, DecidableEq

/-- How a query is executed. -/
structure Config where
  mode : Mode := .parallel none
  /-- Whether the result comes with a profile. -/
  profile : Bool := false
  deriving Repr, DecidableEq

/-- What is wrong with a configuration. -/
inductive ConfigError
  | malformed
  | noThreads
  /-- A file that cannot be read. -/
  | unreadable (path : String)
  /-- A file with something else wrong in it. -/
  | inFile (path : String) (cause : ConfigError)
  deriving Repr, DecidableEq

def ConfigError.message : ConfigError → String
  | malformed => "parsing executor config"
  | noThreads => "parallel mode requires at least one thread"
  | unreadable path => "reading config " ++ path
  | inFile path cause => "loading config " ++ path ++ ": " ++ cause.message

namespace Config

def sequential : Config := { mode := .sequential }

/-- Refuses a parallel mode without a thread. -/
def validate (c : Config) : Except ConfigError Unit :=
  match c.mode with
  | .parallel (some 0) => .error .noThreads
  | _ => .ok ()

/-- How many threads work on the shards, unless that depends on the machine. -/
def threads? (c : Config) : Option Nat :=
  match c.mode with
  | .sequential => some 1
  | .parallel threads => threads.map fun n => max n 1

def toJson (c : Config) : Json :=
  let mode : Json.Members := match c.mode with
    | .sequential => [("type", .string "sequential")]
    | .parallel threads =>
      [("type", .string "parallel"), ("threads", .ofOption (fun (n : Nat) => .integer n) threads)]
  .object [("mode", .object mode), ("profile", .bool c.profile)]

/-! ## Reading -/

/-- The only value under a key: `none` if there are two, and `some none` if there is not any. -/
def only? (members : List (String × α)) (key : String) : Option (Option α) :=
  match members.filter fun m => m.1 == key with
  | [] => some none
  | [m] => some (some m.2)
  | _ => none

/-- A number of threads, which may be left open. -/
def threadsOfJson? : Json → Option (Option Nat)
  | .null => some none
  | .integer n => if 0 ≤ n then some (some n.toNat) else none
  | _ => none

/-- A mode from an object's members: its type, and for a parallel one its threads. -/
def modeOfMembers? (members : List (String × Json)) : Option Mode := do
  let type ← only? members "type"
  match ← (← type).string? with
  | "sequential" => return .sequential
  | "parallel" =>
    let threads ← only? members "threads"
    return .parallel (← threadsOfJson? (threads.getD .null))
  | _ => none

/-- A mode from a list that starts with its type. -/
def modeOfItems? : List Json → Option Mode
  | [.string "sequential"] => some .sequential
  | [.string "parallel"] => some (.parallel none)
  | [.string "parallel", threads] => (threadsOfJson? threads).map .parallel
  | _ => none

/-- A mode from a document. -/
def modeOfJson? : Json → Option Mode
  | .object members => modeOfMembers? members
  | .array items => modeOfItems? items
  | _ => none

/-- A mode from a document as written, which may nest `depth` arrays and objects. -/
def modeOfDraft? (depth : Nat) : Json.Draft → Option Mode
  | .object members =>
    if depth = 0 then none else (Json.memberValues? (depth - 1) members).bind modeOfMembers?
  | .array items =>
    if depth = 0 then none else (Json.itemValues? (depth - 1) items).bind modeOfItems?
  | _ => none

/-- A truth value as written. -/
def boolOfDraft? : Json.Draft → Option Bool
  | .bool b => some b
  | _ => none

/-- A configuration from the values of its two members, each of which may be missing. -/
def ofValues? (mode : α → Option Mode) (profile : α → Option Bool) (m p : Option α) :
    Option Config := do
  let c : Config := {}
  return { mode := ← m.elim (some c.mode) mode, profile := ← p.elim (some c.profile) profile }

/-- A configuration from an object's members. -/
def ofMembers? (mode : α → Option Mode) (profile : α → Option Bool)
    (members : List (String × α)) : Option Config := do
  ofValues? mode profile (← only? members "mode") (← only? members "profile")

/-- A configuration from a list of its values. -/
def ofItems? (mode : α → Option Mode) (profile : α → Option Bool) (items : List α) :
    Option Config :=
  if items.length > 2 then none else ofValues? mode profile items[0]? items[1]?

/-- A configuration from a document. -/
def ofJson? : Json → Option Config
  | .object members => ofMembers? modeOfJson? Json.bool? members
  | .array items => ofItems? modeOfJson? Json.bool? items
  | _ => none

/-- A configuration from a document as written. -/
def ofDraft? : Json.Draft → Option Config
  | .object members => do
    let pairs ← members.mapM fun (key, value) => do return (← Json.text? key, value)
    ofMembers? (modeOfDraft? (Json.maxDepth - 1)) boolOfDraft? pairs
  | .array items => ofItems? (modeOfDraft? (Json.maxDepth - 1)) boolOfDraft? items
  | _ => none

/-- The configuration that a text writes, whether it can be used or not. -/
def parse? (text : String) : Option Config := do
  ofDraft? (← Json.Draft.ofText? text)

/-- The configuration that a text writes. -/
def ofText? (text : String) : Except ConfigError Config := do
  match parse? text with
  | none => throw .malformed
  | some c =>
    c.validate
    return c

/-- The configuration in a file, given what the file holds if it can be read. -/
def ofFile? (path : String) (contents : Option String) : Except ConfigError Config :=
  match contents with
  | none => .error (.unreadable path)
  | some text => (ofText? text).mapError (.inFile path)

end Config
end SeriesQuery

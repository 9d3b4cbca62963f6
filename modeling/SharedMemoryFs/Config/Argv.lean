import SharedMemoryFs.Config.Places

/-!
# Command line overrides

Arguments of the form {lit}`--vfs.<path>=<value>` behind the separator are collected
into an object of their own and merged into the config of the application, and the
lists of places to enable and to disable are applied afterwards.
-/

namespace SharedMemoryFs
namespace Config

open Foundation

/-!
# Values
-/

/-- The number a run of decimal digits says. -/
def digitsValue (digits : List Char) : Nat :=
  digits.foldl (fun acc digit => 10 * acc + (digit.toNat - '0'.toNat)) 0

/-- A decimal without a sign. -/
def unsignedOf (text : List Char) : Option Rat :=
  let whole := text.takeWhile Char.isDigit
  if whole = [] then none
  else
    match text.dropWhile Char.isDigit with
    | [] => some (digitsValue whole)
    | '.' :: fraction =>
        if fraction ≠ [] ∧ fraction.all Char.isDigit then
          some (digitsValue whole + digitsValue fraction / 10 ^ fraction.length)
        else none
    | _ => none

def decimalOf : List Char -> Option Rat
  | '-' :: rest => (unsignedOf rest).map (fun value => -value)
  | text => unsignedOf text

/-- Only booleans and decimals are not texts. -/
def coerce (value : String) : Value :=
  if value = "true" then Value.boolean true
  else if value = "false" then Value.boolean false
  else
    match decimalOf value.toList with
    | some decimal => Value.number (Number.nearest decimal)
    | none => Value.string value

/-!
# Parsing
-/

/-- The whitespace {lit}`trim` removes. -/
def isSpace (c : Char) : Bool :=
  [0x09, 0x0a, 0x0b, 0x0c, 0x0d, 0x20, 0xa0, 0x1680, 0x2028, 0x2029, 0x202f, 0x205f, 0x3000,
    0xfeff].contains c.toNat || (decide (0x2000 ≤ c.toNat) && decide (c.toNat ≤ 0x200a))

def trim (text : List Char) : List Char :=
  ((text.dropWhile isSpace).reverse.dropWhile isSpace).reverse

/-- The names of a comma-separated list, blank ones left out. -/
def namesIn (value : List Char) : List String :=
  (((value.splitOn ',').map trim).filter (fun name => name != [])).map String.ofList

structure Parsed where
  overrides : Value
  enable : List PlaceName
  disable : List PlaceName

def vfsOption : List Char := "--vfs.".toList

/-- Key and value of an argument that is an option of the library. -/
def optionOf (arg : String) : Option (List Char × List Char) :=
  if vfsOption.isPrefixOf arg.toList && (arg.toList.drop 6).contains '=' then
    some ((arg.toList.drop 6).takeWhile (fun c => c != '='),
      ((arg.toList.drop 6).dropWhile (fun c => c != '=')).drop 1)
  else none

def overridable (key : List Char) : Bool :=
  "defaults.".toList.isPrefixOf key || "places.".toList.isPrefixOf key

def parts (key : List Char) : List String := (key.splitOn '.').map String.ofList

/-- The body of the loop for an option. -/
def parseOption (parsed : Parsed) (key value : List Char) : Except Thrown Parsed :=
  if key = "config".toList then Except.ok parsed
  else if key = "enable".toList then
    Except.ok { parsed with enable := parsed.enable ++ namesIn value }
  else if key = "disable".toList then
    Except.ok { parsed with disable := parsed.disable ++ namesIn value }
  else do
    ensure (overridable key) ["unknown CLI key \"--vfs.", String.ofList key, "\""]
    let overrides <-
      setNested (String.ofList key) parsed.overrides (parts key) (coerce (String.ofList value))
    return { parsed with overrides }

/-- The loop over the arguments. -/
def parseArgs (parsed : Parsed) : List String -> Except Thrown Parsed
  | [] => Except.ok parsed
  | arg :: rest =>
      match optionOf arg with
      | none => parseArgs parsed rest
      | some (key, value) => do
          let next <- parseOption parsed key value
          parseArgs next rest

/-- The arguments behind the separator. -/
def arguments (argv : List String) : List String :=
  (argv.dropWhile (fun arg => arg != "--")).drop 1

def parseArgv (argv : List String) : Except Thrown Parsed :=
  parseArgs ⟨Value.object [], [], []⟩ (arguments argv)

/-!
# Selecting places
-/

/-- The built-in prototypes that are objects. -/
inductive Builtin where
  | object
  | boolean
  | number
  | string
deriving DecidableEq, Repr

/-- The built-in prototype that is {lit}`value.__proto__`. -/
def builtinOf : Value -> Option Builtin
  | Value.object _ => some Builtin.object
  | Value.boolean _ => some Builtin.boolean
  | Value.number _ => some Builtin.number
  | Value.string _ => some Builtin.string
  | _ => none

/-- What was assigned to the {lit}`enabled` of built-in prototypes. -/
abbrev Stray := List (Builtin × Bool)

structure Selection where
  places : Value
  stray : Stray

def setEnabled (flag : Bool) (place : Value) : Value := place.put "enabled" (Value.boolean flag)

/-- Change the own properties of an object or an array. -/
def mapOwn (f : String -> Value -> Value) : Value -> Value
  | Value.array items =>
      Value.array (items.zipIdx.map (fun item => f (toString item.2) item.1))
  | Value.object entries => Value.object (entries.map (fun entry => (entry.1, f entry.1 entry.2)))
  | Value.derived proto entries =>
      Value.derived proto (entries.map (fun entry => (entry.1, f entry.1 entry.2)))
  | other => other

/-- The loop over {lit}`Object.values(raw.places)`. -/
def disableAll (places : Value) : Value :=
  mapOwn (fun _ place => if isObject place then setEnabled false place else place) places

/-- {lit}`raw.places[name].enabled = flag`, where the read finds the place. -/
def assignEnabled (flag : Bool) (name : PlaceName) : Value -> Value
  | Value.derived proto entries =>
      if (entries.lookup name).isSome then
        mapOwn (fun key place => if key = name then setEnabled flag place else place)
          (Value.derived proto entries)
      else if name = Value.protoKey then Value.derived (setEnabled flag proto) entries
      else Value.derived (assignEnabled flag name proto) entries
  | places => mapOwn (fun key place => if key = name then setEnabled flag place else place) places

/-- The name is no own property, and what it stands for is a built-in prototype. -/
def strayOf (flag : Bool) (name : PlaceName) (places : Value) : Stray :=
  if name = Value.protoKey ∧ places.own.lookup name = none then
    (builtinOf places).toList.map (fun builtin => (builtin, flag))
  else []

/-- The loop over the listed names, up to the first unknown one. -/
def selectEach (flag : Bool) : List PlaceName -> Selection -> Selection × Option Thrown
  | [], selection => (selection, none)
  | name :: rest, selection =>
      if isObject (selection.places.get name) then
        selectEach flag rest
          { places := assignEnabled flag name selection.places
            stray := selection.stray ++ strayOf flag name selection.places }
      else (selection, some (Thrown.config ["unknown place \"", name, "\""]))

/-- The loops over both lists. -/
def select (enable disable : List PlaceName) (places : Value) : Selection × Option Thrown :=
  match (if enable = [] then ((⟨places, []⟩ : Selection), none)
    else selectEach true enable ⟨disableAll places, []⟩) with
  | (selection, some thrown) => (selection, some thrown)
  | (selection, none) => selectEach false disable selection

/-- An object that reads {lit}`enabled` off its prototype. -/
def inheriting (flag : Bool) : Value -> Value
  | Value.object entries => Value.derived (Value.object [("enabled", Value.boolean flag)]) entries
  | other => other

/-- A place that has no {lit}`enabled` of its own inherits it from the last assignment to
{lit}`Object.prototype`; nothing else is read under this name. -/
def inheritEnabled (stray : Stray) (raw : Value) : Value :=
  match (stray.filter (fun assigned => assigned.1 = Builtin.object)).getLast? with
  | none => raw
  | some (_, flag) =>
      raw.put "places" (mapOwn (fun _ place => inheriting flag place) (raw.get "places"))

/-- What comes of a call: a config or an exception, and the assignments to built-in
prototypes that stay behind in either case. -/
structure Outcome where
  result : Except Thrown VfsConfig
  stray : Stray

/-- The raw config with the overrides merged into it. -/
def merged (appConfig : Value) (parsed : Parsed) : Value :=
  mergeDeep (deepClone appConfig) parsed.overrides

/-- The places the lists are applied to. -/
def selectable (raw : Value) : Value := orEmpty (raw.get "places")

/-- {lit}`fromArgv` behind the parsing of the arguments. -/
def configure (sizeToBytes : String -> Number) (appConfig : Value) (parsed : Parsed) : Outcome :=
  let raw := merged appConfig parsed
  if parsed.enable = [] ∧ parsed.disable = [] then ⟨VfsConfig.new sizeToBytes raw, []⟩
  else
    match select parsed.enable parsed.disable (selectable raw) with
    | (selection, some thrown) => ⟨Except.error thrown, selection.stray⟩
    | (selection, none) =>
        ⟨VfsConfig.new sizeToBytes
          (inheritEnabled selection.stray (raw.put "places" selection.places)), selection.stray⟩

def fromArgv (sizeToBytes : String -> Number) (argv : List String) (appConfig : Value) :
    Outcome :=
  match parseArgv argv with
  | Except.error thrown => ⟨Except.error thrown, []⟩
  | Except.ok parsed => configure sizeToBytes appConfig parsed

end Config
end SharedMemoryFs

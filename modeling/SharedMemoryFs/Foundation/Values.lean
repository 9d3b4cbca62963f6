import SharedMemoryFs.Foundation.OrderedMap

/-!
# Dynamic values

The data a JavaScript program is configured with, and the ways it is read and
written: own entries in the order they were made, reads that go up the prototype
chain, and assignments for which {lit}`__proto__` is not a name like the others.
-/

namespace SharedMemoryFs
namespace Foundation

/-- A number of the language, with the exact value of a double. -/
inductive Number where
  | nan
  | infinite (negative : Bool)
  | finite (value : Rat)
deriving DecidableEq, Repr

namespace Number

/-- {lit}`Number.isInteger`, with the integer. -/
def integer : Number -> Option Int
  | finite value => if value.den = 1 then some value.num else none
  | _ => none

/-- {lit}`Number.isSafeInteger`, with the integer. -/
def safeInteger (n : Number) : Option Int :=
  n.integer.filter (fun value => decide (value.natAbs < 2 ^ 53))

/-- Round to an integer, to the even one when two are as near. -/
def roundHalfEven (value : Rat) : Int :=
  let below := value.floor
  let rest := value - below
  if rest < 1 / 2 then below
  else if 1 / 2 < rest then below + 1
  else if below % 2 = 0 then below
  else below + 1

/-- The double nearest to a value. -/
def nearest (value : Rat) : Number :=
  if value = 0 then finite 0
  else
    let ulp : Rat := 2 ^ (max (Int.log 2 |value|) (-1022) - 52)
    let rounded := roundHalfEven (value / ulp) * ulp
    if 2 ^ 1024 ≤ |rounded| then infinite (decide (value < 0)) else finite rounded

end Number

/-- {lit}`returns` is what a call of a function without arguments gives, nothing
when the call throws. -/
inductive Value where
  | undefined
  | null
  | boolean (value : Bool)
  | number (value : Number)
  | string (text : String)
  | function (returns : Option String)
  | array (items : List Value)
  | object (entries : List (String × Value))
  | derived (proto : Value) (entries : List (String × Value))
deriving Repr

abbrev Entries := List (String × Value)

namespace Value

/-!
# Reading
-/

/-- The own enumerable properties of an object or an array. -/
def own : Value -> Entries
  | array items => items.zipIdx.map (fun item => (toString item.2, item.1))
  | object entries => entries
  | derived _ entries => entries
  | _ => []

def keys (value : Value) : List String := value.own.map Prod.fst

def isArray : Value -> Bool
  | array _ => true
  | _ => false

def isFunction : Value -> Bool
  | function _ => true
  | _ => false

def isNullish : Value -> Bool
  | undefined => true
  | null => true
  | _ => false

def isUndefined : Value -> Bool
  | undefined => true
  | _ => false

def truthy : Value -> Bool
  | undefined => false
  | null => false
  | boolean value => value
  | number value => value != Number.nan && value != Number.finite 0
  | string text => text != ""
  | _ => true

/-- The methods every object inherits. -/
def methods : List String :=
  ["constructor", "__defineGetter__", "__defineSetter__", "hasOwnProperty",
    "__lookupGetter__", "__lookupSetter__", "isPrototypeOf", "propertyIsEnumerable",
    "toString", "valueOf", "toLocaleString"]

def protoKey : String := "__proto__"

/-- What {lit}`Object.prototype` answers for a name. -/
def inherited (name : String) : Value :=
  if name = protoKey then object []
  else if name = "toString" then function (some "[object Object]")
  else if name ∈ methods then function none
  else undefined

/-- The prototype chain ends in {lit}`Object.prototype`. -/
def rooted : Value -> Bool
  | null => false
  | derived proto _ => proto.rooted
  | _ => true

/-- {lit}`value[name]`.  The properties of a function itself are left out. -/
def get : Value -> String -> Value
  | undefined, _ => undefined
  | null, _ => undefined
  | function _, _ => undefined
  | array items, name =>
      ((array items).own.lookup name).getD
        (if name = protoKey then array [] else inherited name)
  | object entries, name => (entries.lookup name).getD (inherited name)
  | derived proto entries, name =>
      (entries.lookup name).getD
        (if name = protoKey then (if proto.rooted then proto else undefined)
        else proto.get name)
  | _, name => inherited name

/-!
# Writing
-/

/-- Only an object or {lit}`null` becomes a prototype, the setter ignores the rest. -/
def canBeProto : Value -> Bool
  | null => true
  | function _ => true
  | array _ => true
  | object _ => true
  | derived _ _ => true
  | _ => false

/-- {lit}`target[name] = value` for an object. -/
def put (target : Value) (name : String) (value : Value) : Value :=
  match target with
  | object entries =>
      if name = protoKey ∧ entries.lookup name = none then
        (if value.canBeProto then derived value entries else object entries)
      else object (OrderedMap.setEntries name value entries)
  | derived proto entries =>
      if name = protoKey ∧ entries.lookup name = none ∧ proto.rooted then
        (if value.canBeProto then derived value entries else derived proto entries)
      else derived proto (OrderedMap.setEntries name value entries)
  | other => other

/-- {lit}`\x7b ...value \x7d`. -/
def spread (value : Value) : Value := object value.own

/-!
# Reads after writes
-/

theorem setEntries_setEntries (name : String) (v w : Value) (entries : Entries) :
    OrderedMap.setEntries name w (OrderedMap.setEntries name v entries) =
      OrderedMap.setEntries name w entries := by
  induction entries with
  | nil => exact if_pos rfl
  | cons entry rest ih =>
      cases hkey : decide (entry.1 = name) with
      | true =>
          have heq := of_decide_eq_true hkey
          rw [OrderedMap.setEntries, if_pos heq, OrderedMap.setEntries, if_pos rfl,
            OrderedMap.setEntries, if_pos heq]
      | false =>
          have hne := of_decide_eq_false hkey
          rw [OrderedMap.setEntries, if_neg hne, OrderedMap.setEntries, if_neg hne,
            OrderedMap.setEntries, if_neg hne, ih]

theorem put_object {name : String} (h : name ≠ protoKey) (value : Value) (entries : Entries) :
    (object entries).put name value = object (OrderedMap.setEntries name value entries) :=
  if_neg (fun hproto => h hproto.1)

theorem put_derived {name : String} (h : name ≠ protoKey) (value proto : Value)
    (entries : Entries) :
    (derived proto entries).put name value =
      derived proto (OrderedMap.setEntries name value entries) :=
  if_neg (fun hproto => h hproto.1)

theorem put_put {name : String} (h : name ≠ protoKey) (target v w : Value) :
    (target.put name v).put name w = target.put name w := by
  cases target with
  | object entries =>
      rw [put_object h, put_object h, put_object h, setEntries_setEntries]
  | derived proto entries =>
      rw [put_derived h, put_derived h, put_derived h, setEntries_setEntries]
  | _ => rfl

theorem get_object (entries : Entries) (name : String) :
    (object entries).get name = (entries.lookup name).getD (inherited name) := rfl

theorem get_put_object {name : String} (h : name ≠ protoKey) (value : Value)
    (entries : Entries) (other : String) :
    ((object entries).put name value).get other =
      if other = name then value else (object entries).get other := by
  rw [put_object h, get_object, get_object, OrderedMap.lookup_setEntries]
  split
  · rfl
  · rfl

theorem get_put_derived {name : String} (h : name ≠ protoKey) (value proto : Value)
    (entries : Entries) (other : String) :
    ((derived proto entries).put name value).get other =
      if other = name then value else (derived proto entries).get other := by
  rw [put_derived h]
  show ((OrderedMap.setEntries name value entries).lookup other).getD _ =
    if other = name then value else (entries.lookup other).getD _
  rw [OrderedMap.lookup_setEntries]
  split
  · rfl
  · rfl

/-!
# Conversions
-/

def returned : Value -> Option String
  | function returns => returns
  | _ => none

/-- An object becomes text by its {lit}`toString`, or its {lit}`valueOf` when that
is no function. -/
def convertsBy (value : Value) : Bool :=
  if (value.get "toString").isFunction then (value.get "toString").returned.isSome
  else (value.get "valueOf").returned.isSome

mutual

/-- {lit}`String(value)` gives a text and does not throw. -/
def converts : Value -> Bool
  | array items => convertsAll items
  | object entries => (object entries).convertsBy
  | derived proto entries => (derived proto entries).convertsBy
  | _ => true

def convertsAll : List Value -> Bool
  | [] => true
  | item :: rest => item.converts && convertsAll rest

end

mutual

/-- {lit}`JSON.stringify(value)` does not throw. -/
def serializes : Value -> Bool
  | array items => serializesAll items
  | object entries =>
      if ((object entries).get "toJSON").isFunction then
        ((object entries).get "toJSON").returned.isSome
      else serializesIn entries
  | derived proto entries =>
      if ((derived proto entries).get "toJSON").isFunction then
        ((derived proto entries).get "toJSON").returned.isSome
      else serializesIn entries
  | _ => true

def serializesAll : List Value -> Bool
  | [] => true
  | item :: rest => item.serializes && serializesAll rest

def serializesIn : List (String × Value) -> Bool
  | [] => true
  | (_, value) :: rest => value.serializes && serializesIn rest

end

/-!
# One value for each key
-/

mutual

/-- The own keys of every object are distinct. -/
def proper : Value -> Bool
  | array items => properAll items
  | object entries => decide (entries.map Prod.fst).Nodup && properIn entries
  | derived proto entries =>
      proto.proper && decide (entries.map Prod.fst).Nodup && properIn entries
  | _ => true

def properAll : List Value -> Bool
  | [] => true
  | item :: rest => item.proper && properAll rest

def properIn : List (String × Value) -> Bool
  | [] => true
  | (_, value) :: rest => value.proper && properIn rest

end

end Value

end Foundation
end SharedMemoryFs

import SharedMemoryFs.Foundation.Values

/-!
# Merging raw configs

The helpers by which raw configs are copied, merged and written at a dotted path,
with the errors they and the validation behind them throw.
-/

namespace SharedMemoryFs
namespace Config

open Foundation

/-- Part of a message: a text, a value as {lit}`String` shows it, or a value as
{lit}`JSON.stringify` shows it. -/
inductive Piece where
  | text (text : String)
  | shown (value : Value)
  | json (value : Value)
deriving Repr

instance : Coe String Piece := ⟨Piece.text⟩

def Piece.converts : Piece -> Bool
  | text _ => true
  | shown value => value.converts
  | json value => value.serializes

/-- A {lit}`[vfs config]` error with its message, or any other exception. -/
inductive Thrown where
  | config (message : List Piece)
  | other
deriving Repr

def Thrown.isConfig : Thrown -> Bool
  | config _ => true
  | other => false

variable {alpha beta : Type}

/-- A value that does not convert throws before the message is there. -/
def fail (message : List Piece) : Except Thrown alpha :=
  if message.all Piece.converts then Except.error (Thrown.config message)
  else Except.error Thrown.other

/-- Throw unless {lit}`allowed`. -/
def ensure (allowed : Bool) (message : List Piece) : Except Thrown Unit :=
  if allowed then Except.ok () else fail message

/-!
# Inversion of checks
-/

theorem bind_ok {x : Except Thrown alpha} {f : alpha -> Except Thrown beta} {result : beta} :
    x >>= f = Except.ok result <-> exists a, x = Except.ok a ∧ f a = Except.ok result := by
  cases x with
  | error e =>
      constructor
      · intro h
        cases h
      · intro h
        rcases h with ⟨_, hx, _⟩
        cases hx
  | ok a =>
      constructor
      · intro h
        exact ⟨a, rfl, h⟩
      · intro h
        rcases h with ⟨b, hx, hf⟩
        cases hx
        exact hf

@[simp] theorem fail_ne_ok {message : List Piece} {result : alpha} :
    (fail message : Except Thrown alpha) ≠ Except.ok result := by
  unfold fail
  split <;> exact fun h => by cases h

theorem ensure_ok {allowed : Bool} {message : List Piece} {u : Unit} :
    ensure allowed message = Except.ok u <-> allowed = true := by
  unfold ensure
  cases allowed with
  | true => simp
  | false => simp

/-!
# Copies
-/

def isObject : Value -> Bool
  | Value.object _ => true
  | Value.derived _ _ => true
  | _ => false

mutual

def deepClone : Value -> Value
  | Value.array items => Value.array (cloneItems items)
  | Value.object entries => cloneInto (Value.object []) entries
  | Value.derived _ entries => cloneInto (Value.object []) entries
  | other => other

def cloneItems : List Value -> List Value
  | [] => []
  | item :: rest => deepClone item :: cloneItems rest

/-- The loop over the own keys. -/
def cloneInto (result : Value) : List (String × Value) -> Value
  | [] => result
  | (key, value) :: rest => cloneInto (result.put key (deepClone value)) rest

end

mutual

def mergeDeep (target : Value) : Value -> Value
  | Value.object entries => mergeInto target target.spread entries
  | Value.derived _ entries => mergeInto target target.spread entries
  | _ => target

/-- The loop over the own keys of the source. -/
def mergeInto (target result : Value) : List (String × Value) -> Value
  | [] => result
  | (key, sv) :: rest =>
      mergeInto target
        (result.put key
          (if isObject sv then
            mergeDeep (if isObject (target.get key) then target.get key else Value.object []) sv
          else sv))
        rest

end

def unsafeKeys : List String := ["__proto__", "prototype", "constructor"]

/-- {lit}`path` is the whole dotted path, for the message. -/
def setNested (path : String) (obj : Value) : List String -> Value -> Except Thrown Value
  | [], _ => Except.ok obj
  | [part], value => do
      ensure (!unsafeKeys.contains part) ["unsafe CLI key \"", path, "\""]
      return obj.put part value
  | part :: rest, value => do
      ensure (!unsafeKeys.contains part) ["unsafe CLI key \"", path, "\""]
      let inner := if isObject (obj.get part) then obj.get part else Value.object []
      let changed <- setNested path inner rest value
      return obj.put part changed

end Config
end SharedMemoryFs

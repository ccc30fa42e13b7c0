import Redeclare.Json.Display
import Redeclare.Path

/-!
# Events

What is worth telling about a run, as events. Each has a level, a source and a wording; who listens chooses from which
level on.
-/

namespace Redeclare

/-- How much an event matters. -/
inductive Level where
  | debug
  | info
  | warning
  | error
  | critical
deriving DecidableEq, Repr

/-- The part of the program that tells of an event. -/
inductive Source where
  | artifact
  | patch
  | batch
deriving DecidableEq, Repr

/-- Something worth telling. -/
inductive Event where
  | wrote (path : Path) (length : Nat)
  | declared (path : Path) (function : Json) (selector : Text) (previous : Json) (mutability : Text)
  | functionMissing (path : Path) (function : Json)
  | overloads (path : Path) (function : Json) (count : Nat)
  | targetFailed (path : Path) (function : Text)
  | finished (patched missing failed : Nat)

namespace Level

/-- The rank of a level; a listener hears what ranks at least as high as its threshold. -/
def rank : Level → Nat
  | .debug => 10
  | .info => 20
  | .warning => 30
  | .error => 40
  | .critical => 50

/-- The name of a level. -/
def name : Level → Text
  | .debug => Text.ofString "DEBUG"
  | .info => Text.ofString "INFO"
  | .warning => Text.ofString "WARNING"
  | .error => Text.ofString "ERROR"
  | .critical => Text.ofString "CRITICAL"

/-- The thresholds that a listener can be given, by name. -/
def thresholds : List (Text × Nat) :=
  [(Text.ofString "CRITICAL", 50), (Text.ofString "FATAL", 50), (Text.ofString "ERROR", 40), (Text.ofString "WARN", 30),
   (Text.ofString "WARNING", 30), (Text.ofString "INFO", 20), (Text.ofString "DEBUG", 10), (Text.ofString "NOTSET", 0)]

/-- The threshold with a name. -/
def threshold? (name : Text) : Option Nat := (thresholds.find? (·.1 == name)).map (·.2)

end Level

namespace Source

/-- The name of a source; that of the batch is `batchName`, as it depends on how the program was started. -/
def name (batchName : Text) : Source → Text
  | .artifact => Text.ofString "chain.abi"
  | .patch => Text.ofString "chain.abi_patch"
  | .batch => batchName

/-- The name of the batch when the program is used as a part of another. -/
def batchName : Text := Text.ofString "patch_abis"

/-- The name of the batch when the program is run by itself. -/
def mainName : Text := Text.ofString "__main__"

end Source

namespace Event

/-- How much an event matters. -/
def level : Event → Level
  | .wrote _ _ => .debug
  | .declared _ _ _ _ _ => .info
  | .functionMissing _ _ => .warning
  | .overloads _ _ _ => .warning
  | .targetFailed _ _ => .error
  | .finished _ _ _ => .info

/-- Who tells of an event. -/
def source : Event → Source
  | .wrote _ _ => .artifact
  | .declared _ _ _ _ _ => .patch
  | .functionMissing _ _ => .patch
  | .overloads _ _ _ => .patch
  | .targetFailed _ _ => .batch
  | .finished _ _ _ => .batch

/-- The wording of an event. -/
def message : Event → Text
  | .wrote path length =>
    Text.ofString "Wrote " ++ path.toText ++ Text.ofString " (" ++ Text.ofNat length ++ Text.ofString " chars)"
  | .declared path function selector previous mutability =>
    path.toText ++ Text.ofString ": " ++ function.display ++ Text.ofString " [" ++ selector ++ Text.ofString "] " ++
      previous.display ++ Text.ofString " -> " ++ mutability
  | .functionMissing path function =>
    Text.ofString "Function " ++ function.display ++ Text.ofString " not found in " ++ path.toText
  | .overloads path function count =>
    path.toText ++ Text.ofString ": " ++ Text.ofNat count ++ Text.ofString " functions named " ++ function.display ++
      Text.ofString ", leaving " ++ Text.ofNat (count - 1) ++ Text.ofString " overload(s) as declared"
  | .targetFailed path function =>
    Text.ofString "Failed to patch " ++ function ++ Text.ofString " in " ++ path.toText
  | .finished patched missing failed =>
    Text.ofString "ABI patch: " ++ Text.ofNat patched ++ Text.ofString " patched, " ++ Text.ofNat missing ++
      Text.ofString " not found, " ++ Text.ofNat failed ++ Text.ofString " failed"

/-- An event as a line: level, source and wording. -/
def line (batchName : Text) (e : Event) : Text :=
  e.level.name ++ Text.ofString " " ++ e.source.name batchName ++ Text.ofString ": " ++ e.message

end Event

end Redeclare

import Redeclare.Batch
import Redeclare.Settings.EnvFile
import Redeclare.Text.UpperCase

/-!
# Settings

Where artifacts are and what is told of a run is set by two variables, in the environment or in a file of variables.
What the environment sets, also to nothing, comes first. The targets of a batch come from a manifest of contracts and
functions.
-/

namespace Redeclare

/-- Variables with their values. What is no UTF-8 in them is kept as lone surrogates, one for each byte. -/
abbrev Environment := List (Text × Text)

/-- What is set. -/
structure Settings where
  out : Path
  level : Text
deriving DecidableEq

/-- A contract and a function of it; both are meant to be texts. -/
abbrev Manifest := List (Json × Json)

namespace Environment

/-- The value of a variable. -/
def get? (env : Environment) (name : Text) : Option Text := (env.find? (·.1 == name)).map (·.2)

/-- The bindings of a file with their references replaced, one for each name: the last of it, in the place of the
first. References see the environment before the bindings above them. -/
def resolve (env : Environment) (bindings : List EnvFile.Binding) : List (Text × Option Text) :=
  bindings.foldl
    (fun known b =>
      let value? : List Char → Option (Option Text) := fun name =>
        match env.get? (Text.ofChars name) with
        | some v => some (some v)
        | none => (known.find? (·.1 == Text.ofChars name)).map (·.2)
      let name := Text.ofChars b.name
      let value := b.value.map fun v => EnvFile.expand value? (v.length + 1) v
      if known.any (·.1 == name) then known.map fun k => if k.1 = name then (k.1, value) else k
      else known ++ [(name, value)])
    []

/-- The environment with the bindings that it does not have yet. A name or value with the character number zero cannot
be set, nor can a name with an equals sign. -/
def extend (env : Environment) : List (Text × Option Text) → Except Failure Environment
  | [] => .ok env
  | (_, none) :: rest => extend env rest
  | (name, some value) :: rest =>
    if (env.get? name).isSome then extend env rest
    else if name.contains (.char '\x00') || value.contains (.char '\x00') then .error .nul
    else if name.contains (.char '=') then .error .badVariable
    else extend (env ++ [(name, value)]) rest

/-- The variable that keeps the file of variables from being loaded. -/
def offVariable : Text := Text.ofString "PYTHON_DOTENV_DISABLED"

/-- The values that mean yes, in upper case. -/
def yesWords : List Text := ["1", "T", "TRUE", "Y", "YES"].map Text.ofString

/-- The file of variables is not to be loaded. -/
def isOff (env : Environment) : Bool :=
  match env.get? offVariable with
  | some value => yesWords.contains (UpperCase.ofText value)
  | none => false

/-- The environment after a file of variables was loaded, if there is one and it is to be loaded. -/
def load (env : Environment) (file : Option (List Char)) : Except Failure Environment :=
  match file with
  | none => .ok env
  | some text => if env.isOff then .ok env else env.extend (env.resolve (EnvFile.bindings text))

end Environment

namespace Settings

/-- The variable for the directory of the artifacts. -/
def outVariable : Text := Text.ofString "FOUNDRY_OUT"

/-- The variable for the level from which on events are told. -/
def levelVariable : Text := Text.ofString "LOG_LEVEL"

/-- The settings in an environment. -/
def ofEnvironment (env : Environment) : Settings where
  out := Path.parse ((env.get? outVariable).getD (Text.ofString "out"))
  level := UpperCase.ofText ((env.get? levelVariable).getD (Text.ofString "INFO"))

/-- The settings in an environment and a file of variables. -/
def load (env : Environment) (file : Option (List Char)) : Except Failure Settings :=
  match env.load file with
  | .ok env => .ok (ofEnvironment env)
  | .error e => .error e

/-- The functions that are declared as view when nothing else is asked for. -/
def manifest : Manifest :=
  [(.str (Text.ofString "Endorser"), .str (Text.ofString "isOperationReady")),
   (.str (Text.ofString "OperationValidator"), .str (Text.ofString "simulateOperation"))]

/-- The artifact of a contract: in a directory named for its source, in a file named for itself. -/
def artifact (s : Settings) (contract : Json) : Path :=
  s.out ++ Path.parse (contract.display ++ Text.ofString ".sol") ++
    Path.parse (contract.display ++ Text.ofString ".json")

/-- The target for a function of a contract. -/
def target (s : Settings) (contract function : Json) : Except Failure Target :=
  Target.make (s.artifact contract) function

/-- The targets of a manifest, in order; the first entry that makes none is reported. -/
def targets (s : Settings) : Manifest → Except Failure (List Target)
  | [] => .ok []
  | (contract, function) :: rest =>
    match s.target contract function with
    | .error e => .error e
    | .ok t =>
      match targets s rest with
      | .error e => .error e
      | .ok ts => .ok (t :: ts)

end Settings

end Redeclare

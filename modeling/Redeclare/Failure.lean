import Redeclare.Abi.Signature
import Redeclare.FileTree.Basic
import Redeclare.Json.Error
import Redeclare.Validation

/-!
# Failures

Everything that can go wrong, as causes. A cause has a kind and a wording; both appear in the report of a batch. The
wording of a new file that could not be opened or moved names it, though its name is drawn anew each time.
-/

namespace Redeclare

/-- Why something failed. -/
inductive Failure where
  | noFunction
  | unknownMutability (value : Json)
  | nul
  | system (e : Errno) (path : Path)
  | unopened (e : Errno) (beside : Path)
  | unmoved (e : Errno) (beside path : Path)
  | noFreeName
  | diskFull
  | linkLoop (path : Path)
  | longWhole
  | notUtf8 (e : Utf8.DecodeError)
  | loneSurrogates (e : Utf8.EncodeError)
  | noDocument (e : Json.ReadError)
  | noArtifact (e : Abi.ShapeError) (name : Text)
  | noSignature (e : Abi.SignatureError)
  | tooDeep
  | invalid (e : Invalid)
  | unknownLevel (name : Text)
  | badVariable

namespace Errno

/-- The number of a refusal. -/
def number : Errno → Nat
  | .notFound => 2
  | .busy => 16
  | .occupied => 17
  | .notADirectory => 20
  | .isADirectory => 21
  | .nameTooLong => 36
  | .tooManyLinks => 40

/-- The wording of a refusal. -/
def wording : Errno → Text
  | .notFound => Text.ofString "No such file or directory"
  | .busy => Text.ofString "Device or resource busy"
  | .occupied => Text.ofString "File exists"
  | .notADirectory => Text.ofString "Not a directory"
  | .isADirectory => Text.ofString "Is a directory"
  | .nameTooLong => Text.ofString "File name too long"
  | .tooManyLinks => Text.ofString "Too many levels of symbolic links"

/-- The kind of a refusal: some have one of their own. -/
def kind : Errno → Text
  | .notFound => Text.ofString "FileNotFoundError"
  | .occupied => Text.ofString "FileExistsError"
  | .notADirectory => Text.ofString "NotADirectoryError"
  | .isADirectory => Text.ofString "IsADirectoryError"
  | .busy | .nameTooLong | .tooManyLinks => Text.ofString "OSError"

/-- The wording of a refusal with its number and the path that was refused. -/
def message (e : Errno) (path : Path) : Text :=
  Text.ofString "[Errno " ++ Text.ofNat e.number ++ Text.ofString "] " ++ e.wording ++ Text.ofString ": " ++
    path.toText.quoted

end Errno

namespace Failure

/-- The kind of a failure. -/
def kind : Failure → Text
  | .noFunction | .unknownMutability _ | .nul | .longWhole | .unknownLevel _ | .badVariable =>
    Text.ofString "ValueError"
  | .system e _ | .unopened e _ | .unmoved e _ _ => e.kind
  | .noFreeName => Errno.kind .occupied
  | .diskFull => Text.ofString "OSError"
  | .linkLoop _ => Text.ofString "RuntimeError"
  | .notUtf8 _ => Text.ofString "UnicodeDecodeError"
  | .loneSurrogates _ => Text.ofString "UnicodeEncodeError"
  | .noDocument (.malformed _ _) => Text.ofString "JSONDecodeError"
  | .noDocument _ => Text.ofString "ValueError"
  | .noArtifact _ _ => Text.ofString "MalformedAbiError"
  | .noSignature (.notIterable _) => Text.ofString "TypeError"
  | .noSignature (.noMembers _) => Text.ofString "AttributeError"
  | .tooDeep => Text.ofString "RecursionError"
  | .invalid _ => Text.ofString "ValidationError"

/-- The wording of a failure. -/
def message : Failure → Text
  | .noFunction => Text.ofString "function_name must be non-empty"
  | .unknownMutability value => Text.ofString "Invalid stateMutability: " ++ value.shown
  | .nul => Text.ofString "embedded null byte"
  | .system e path | .unopened e path => e.message path
  | .unmoved e beside path => e.message beside ++ Text.ofString " -> " ++ path.toText.quoted
  | .noFreeName => Text.ofString "[Errno 17] No usable temporary file name found"
  | .diskFull => Text.ofString "disk full"
  | .linkLoop path => Text.ofString "Symlink loop from " ++ path.toText.quoted
  | .longWhole =>
    Text.ofString "Exceeds the limit (" ++ Text.ofNat Json.maxDigits ++
      Text.ofString " digits) for integer string conversion; use sys.set_int_max_str_digits() to increase the limit"
  | .notUtf8 e => e.message
  | .loneSurrogates e => e.message
  | .noDocument e => e.message
  | .noArtifact e name => e.message name
  | .noSignature e => e.message
  | .tooDeep => Text.ofString "maximum recursion depth exceeded"
  | .invalid e => e.message
  | .unknownLevel name => Text.ofString "Unknown level: " ++ name.quoted
  | .badVariable => Text.ofString "illegal environment variable name"

/-- The line that a report keeps of a failure. -/
def summary (f : Failure) : Text := f.kind ++ Text.ofString ": " ++ f.message

end Failure

end Redeclare

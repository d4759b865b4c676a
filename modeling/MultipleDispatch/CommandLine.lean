import MultipleDispatch.Folder
import MultipleDispatch.Manifest.Toml
import MultipleDispatch.Report
import MultipleDispatch.Settings.Overrides

/-!
The command line: compiles the manifest that is named and writes down the result.
-/

namespace MultipleDispatch.CommandLine

/-- What is left behind: an exit code and the two outputs. -/
structure Outcome where
  code : Nat
  out : String
  err : String

/-- The text on how to call the program. -/
def usage : String := "Usage: overload-dump <manifest.toml> [--json] [--emit]\n"

/-- What the arguments ask for. -/
structure Options where
  manifest : Option String := none
  json : Bool := false
  emit : Bool := false

namespace Options

/-- The form of the output; JSON wins. -/
def format (o : Options) : Format :=
  if o.json then .json else if o.emit then .listing else .text

/-- Reads the arguments. The first one that ends the matter does so, and of several manifests the last
    one counts. -/
def read (o : Options) : List String → Except Outcome Options
  | [] => .ok o
  | "--json" :: rest => { o with json := true }.read rest
  | "--emit" :: rest => { o with emit := true }.read rest
  | "-h" :: _ => .error ⟨0, usage, ""⟩
  | "--help" :: _ => .error ⟨0, usage, ""⟩
  | arg :: rest =>
    if arg.startsWith "-" then .error ⟨1, "", s!"Unknown argument: {arg}\n"⟩
    else { o with manifest := some arg }.read rest

end Options

/-- The end of a run that failed. -/
def failed (e : Error) : Outcome := ⟨1, "", s!"Error: {e.message}\n"⟩

/-- The manifest in a file, given what was read of it. -/
def manifestOf (path : String) (content : Except ReadFailure ByteArray) : Except Error Manifest :=
  match content with
  | .error failure => .error (.badManifest s!"{path}: {failure.message}")
  | .ok bytes =>
    match String.fromUTF8? bytes with
    | none => .error (.badManifest s!"{path}: stream did not contain valid UTF-8")
    | some text =>
      match Manifest.ofDocument? text with
      | none => .error (.badManifest "TOML parse error")
      | some m => .ok m

/-- Compiles the manifest in a file, with overrides for its settings. -/
def dump (format : Format) (overrides : Overrides) (path : String)
    (content : Except ReadFailure ByteArray) : Except Error String := do
  let m ← manifestOf path content
  let settings ← overrides.apply m.settings
  let table ← { m with settings }.compile.run.value
  return report format table

/-- Runs the program; `readFile` reads a file. -/
def run {m : Type → Type} [Monad m] (readFile : String → m (Except ReadFailure ByteArray))
    (overrides : Overrides) (args : List String) : m Outcome := do
  if args.isEmpty then return ⟨1, "", usage⟩
  match Options.read {} args with
  | .error outcome => return outcome
  | .ok options =>
    match options.manifest with
    | none => return ⟨1, "", "Error: manifest file required\n"⟩
    | some path =>
      match dump options.format overrides path (← readFile path) with
      | .ok text => return ⟨0, text, ""⟩
      | .error e => return failed e

end MultipleDispatch.CommandLine

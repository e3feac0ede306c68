import Gloss.Dialect
import Gloss.Disk
import Gloss.Explanation
import Gloss.Toml.Document

/-!
# Settings

The settings of a command are its dialect and the extensions of the files that
it takes from directories. They come in layers, a settings file and the command
line, each of which gives some of the parts: a later layer wins, and the last
preset that is given is the base under all of them.

`Settings.load` reads the layers and refuses a dialect with a fault.
-/

namespace Gloss

/-- A dialect that can be named. -/
inductive Preset : Type
  | hash
  | atSign
deriving DecidableEq, Repr

namespace Preset

/-- The dialect of a preset. -/
def dialect : Preset → Dialect
  | hash => .hash
  | atSign => .atSign

/-- The preset of a name. -/
def ofName? : String → Option Preset
  | "hash" => some hash
  | "at" => some atSign
  | _ => none

end Preset

/-- What a command works with. -/
structure Settings : Type where
  dialect : Dialect
  extensions : List String
deriving DecidableEq, Repr

namespace Settings

/-- The parts that a source of settings gives. -/
structure Layer : Type where
  preset : Option Preset
  introducer : Option Char
  brackets : Option (List Bracket)
  specials : Option (List Char)
  depthLimit : Option Nat
  disambiguator : Option Char
  strict : Option Bool
  extensions : Option (List String)
deriving DecidableEq, Repr

namespace Layer

/-- No part. -/
def empty : Layer := ⟨none, none, none, none, none, none, none, none⟩

/-- Replaces the parts that the layer gives. -/
def apply (l : Layer) (s : Settings) : Settings where
  dialect :=
    { s.dialect with
      introducer := l.introducer.getD s.dialect.introducer
      brackets := l.brackets.getD s.dialect.brackets
      specials := l.specials.getD s.dialect.specials
      depthLimit := l.depthLimit.getD s.dialect.depthLimit
      disambiguator := l.disambiguator.or s.dialect.disambiguator
      strict := l.strict.getD s.dialect.strict }
  extensions := l.extensions.getD s.extensions

/-- A variant by its name, or by its name with an empty list or table. -/
def variant? : Data → Option String
  | .text name => some name
  | .record [(name, .record [])] => some name
  | .record [(name, .list [])] => some name
  | _ => none

/-- The text of a value. -/
def text? : Data → Option String
  | .text value => some value
  | _ => none

/-- The items of a list, each read in one way. -/
def listOf? {α : Type} (read : Data → Option α) (value : Data) : Option (List α) :=
  value.list?.bind fun items => items.mapM read

/-- Adds a field of a settings file. Fields of other names are refused. -/
def withField? (l : Layer) (field : String × Data) : Option Layer :=
  let value := field.2
  match field.1 with
  | "preset" => ((variant? value).bind Preset.ofName?).map fun p => { l with preset := some p }
  | "introducer" => value.char?.map fun c => { l with introducer := some c }
  | "block_delimiters" =>
    (listOf? (fun item => (variant? item).bind Bracket.ofName?) value).map fun bs =>
      { l with brackets := some bs }
  | "special_chars" => (listOf? Data.char? value).map fun cs => { l with specials := some cs }
  | "max_nesting_depth" => value.size?.map fun n => { l with depthLimit := some n }
  | "disambiguator" => value.char?.map fun c => { l with disambiguator := some c }
  | "strict" => value.bool?.map fun b => { l with strict := some b }
  | "extensions" => (listOf? text? value).map fun es => { l with extensions := some es }
  | _ => none

/-- The layer of a settings file. -/
def ofText? (text : String) : Option Layer :=
  match Toml.read? text with
  | some (.record fields) => fields.foldlM withField? empty
  | _ => none

end Layer

/-- The extensions of the files that a directory is searched for. -/
def defaultExtensions : List String := ["js", "mjs", "cjs", "ts"]

/-- The settings of a preset. -/
def ofPreset (p : Preset) : Settings := ⟨p.dialect, defaultExtensions⟩

/-- The settings of layers, the last of which counts most. -/
def ofLayers (layers : List Layer) : Settings :=
  let preset := (layers.filterMap (·.preset)).getLast?.getD .hash
  layers.foldl (fun s l => l.apply s) (ofPreset preset)

/-- Whether a file in a directory is one that the settings ask for. -/
def accepts (s : Settings) (path : String) : Bool :=
  (Path.extension? path).any s.extensions.contains

/-- Why there are no settings. -/
inductive Fault : Type
  | unreadable (path : String) (fault : ReadFault)
  | unparsable (path : String)
  | unusable (fault : Dialect.Fault)
deriving DecidableEq, Repr

/-- A fault in words. -/
def Fault.explanation : Fault → Explanation
  | unreadable path fault => ⟨s!"Failed to read {path}", [fault.message]⟩
  | unparsable path => .plain s!"Failed to parse {path}"
  | unusable fault => ⟨"Invalid scanner configuration", [fault.message]⟩

/-- The settings of layers, unless their dialect has a fault. -/
def check (layers : List Layer) : Except Fault Settings :=
  match (ofLayers layers).dialect.fault? with
  | some fault => .error (.unusable fault)
  | none => .ok (ofLayers layers)

/-- The layer of the settings file with the given content. -/
def layerOf (path : String) : Except ReadFault String → Except Fault Layer
  | .error fault => .error (.unreadable path fault)
  | .ok text =>
    match Layer.ofText? text with
    | some layer => .ok layer
    | none => .error (.unparsable path)

/-- The settings file of a directory. -/
def defaultFile : String := ".hnote.toml"

/-- The path of the settings file: the one that is asked for, or else the one of the working
directory if it exists. -/
def path? {m : Type → Type} [Monad m] (disk : Disk m) : Option String → m (Option String)
  | some path => pure (some path)
  | none => do
    let kind ← disk.kind? defaultFile
    pure (kind.map fun _ => defaultFile)

/-- The settings of the settings file and the command line. -/
def load {m : Type → Type} [Monad m] (disk : Disk m) (path : Option String) (line : Layer) :
    m (Except Fault Settings) := do
  match ← path? disk path with
  | none => pure (check [line])
  | some path => do
    let content ← disk.readText path
    pure ((layerOf path content).bind fun layer => check [layer, line])

/-- The settings of layers without a fault have a valid dialect. -/
theorem check_valid {layers : List Layer} {s : Settings} (h : check layers = .ok s) :
    s.dialect.Valid := by
  unfold check at h
  split at h
  · cases h
  · next fine =>
    cases h
    exact fine

end Settings

end Gloss

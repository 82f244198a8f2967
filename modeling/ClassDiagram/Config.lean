import ClassDiagram.Places
import ClassDiagram.Toml.Data

/-! The configuration that a document gives: what is drawn and where, and how builds are set. -/

namespace ClassDiagram

open Files (Workspace)
open Toml (Data)

/-! The keys of the document. -/

namespace ConfigKey

def emit : String := "emit"

def direction : String := "direction"

def minAccess : String := "min-access"

def outDir : String := "out-dir"

def build : String := "build"

def enabled : String := "typediagram-enabled"

def packages : String := "packages"

def version : String := "version"

def privateAssets : String := "private-assets"

end ConfigKey

structure EmitConfig where
  direction : Option String
  minAccess : Option String
  /-- The folder of the diagrams, as seen from the folder of the document. -/
  outDir : Option Path

structure PackageConfig where
  version : Option String
  privateAssets : Option String

structure BuildConfig where
  enabled : Option Bool
  packages : List (String × PackageConfig)

structure Config where
  emit : EmitConfig
  build : BuildConfig

namespace EmitConfig

def empty : EmitConfig := ⟨none, none, none⟩

def read (data : Data) : Option EmitConfig :=
  match data.fields? [ConfigKey.direction, ConfigKey.minAccess, ConfigKey.outDir] 3 with
  | some [direction, minAccess, outDir] => do
    let direction ← Data.optional Data.text? direction
    let minAccess ← Data.optional Data.text? minAccess
    let outDir ← Data.optional Data.text? outDir
    return ⟨direction, minAccess, outDir.map Path.mk⟩
  | _ => none

end EmitConfig

namespace PackageConfig

def read (data : Data) : Option PackageConfig :=
  match data.fields? [ConfigKey.version, ConfigKey.privateAssets] 2 with
  | some [version, privateAssets] => do
    let version ← Data.optional Data.text? version
    let privateAssets ← Data.optional Data.text? privateAssets
    return ⟨version, privateAssets⟩
  | _ => none

def readAll : Data → Option (List (String × PackageConfig))
  | .record fields => fields.mapM fun (name, data) => (read data).map fun config => (name, config)
  | _ => none

end PackageConfig

namespace BuildConfig

def empty : BuildConfig := ⟨none, []⟩

def read (data : Data) : Option BuildConfig :=
  match data.fields? [ConfigKey.enabled, ConfigKey.packages] 1 with
  | some [enabled, packages] => do
    let enabled ← Data.optional Data.bool? enabled
    let packages ← Data.fieldOr [] PackageConfig.readAll packages
    return ⟨enabled, packages⟩
  | _ => none

def package? (c : BuildConfig) (name : String) : Option PackageConfig := c.packages.lookup name

end BuildConfig

namespace Config

def empty : Config := ⟨.empty, .empty⟩

def read (data : Data) : Option Config :=
  match data.fields? [ConfigKey.emit, ConfigKey.build] 0 with
  | some [emit, build] => do
    let emit ← Data.fieldOr .empty EmitConfig.read emit
    let build ← Data.fieldOr .empty BuildConfig.read build
    return ⟨emit, build⟩
  | _ => none

def parse (text : String) : Option Config := (Toml.Document.dataOf? text).bind read

end Config

/-- A configuration and the document that it is from; none where there is no document. -/
structure LoadedConfig where
  path : Option Path
  config : Config

namespace LoadedConfig

def empty : LoadedConfig := ⟨none, .empty⟩

def loadFrom (w : Workspace) (path : Path) : Except Failure LoadedConfig :=
  match w.readText path with
  | .error cause => .error (.io path cause)
  | .ok text => match Config.parse text with
    | none => .error (.malformedConfig path)
    | some config => .ok ⟨some path, config⟩

/-- The configuration that is asked for, which has to be there, or else the one nearest to
`start`. -/
def load (w : Workspace) (asked : Option Path) (start : Path) : Except Failure LoadedConfig :=
  match asked with
  | some path => if w.isFile path then loadFrom w path else .error (.noConfig path)
  | none => match Places.nearestDocument? w start with
    | none => .ok .empty
    | some path => loadFrom w path

def baseFolder (c : LoadedConfig) : Path := (c.path.map Path.folder).getD ⟨""⟩

end LoadedConfig

end ClassDiagram

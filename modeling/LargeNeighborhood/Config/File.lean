import LargeNeighborhood.Config.Toml
import LargeNeighborhood.Config.Yaml

/-!
# Reading configurations

A configuration is read from a text or from the bytes of a file, which may be missing. A file must
exist and hold UTF-8 before its format matters.
-/

namespace LargeNeighborhood

inductive ReadError
  /-- There is no file, or it is not UTF-8. -/
  | unreadable
  | toml
  | yaml
deriving DecidableEq

namespace Config

def fromToml (text : String) : Except ReadError Config :=
  match ofToml? text with
  | some c => .ok c
  | none => .error .toml

def fromYaml (text : String) : Except ReadError Config :=
  match ofYaml? text with
  | some c => .ok c
  | none => .error .yaml

def fileText (file : Option ByteArray) : Except ReadError String :=
  match file.bind String.fromUTF8? with
  | some text => .ok text
  | none => .error .unreadable

def fromTomlFile (file : Option ByteArray) : Except ReadError Config :=
  (fileText file).bind fromToml

def fromYamlFile (file : Option ByteArray) : Except ReadError Config :=
  (fileText file).bind fromYaml

def load (file : Option ByteArray) : Except ReadError Config :=
  fromTomlFile file

/-- Reads a configuration file, or takes the standard configuration in its place. -/
def loadOrStandard (file : Option ByteArray) : Config :=
  match load file with
  | .ok c => c
  | .error _ => .standard

end Config

end LargeNeighborhood

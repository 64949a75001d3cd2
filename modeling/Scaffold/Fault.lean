import Scaffold.Tree.Mismatch
import Scaffold.Target

/-!
Everything that can end a pass, with its code, its message and a word of help.
-/
namespace Scaffold

/-- Why a file or directory could not be used. -/
inductive Fault.Access where
  | noMetadataDirectory
  /-- The file system refused; what it says is not part of a fault. -/
  | refused
deriving DecidableEq, Repr

inductive Fault where
  | access (path : String) (why : Fault.Access)
  | parse (path : String) (why : Mismatch)
  | invalidConfig (path : String)
  | duplicateType (name : String)
  | noMetadata (path : String)
  | unsupportedNesting (model shape : String)
  | unknownEnclosing (model enclosing : String)
  | cyclicInheritance (model : String)
  | duplicateClass (name first second : String)
  | missingProperty (model property context : String)
  | noDefaultValue (model target property type : String)
  | inconsistentArrays (model target : String) (equals hash : ArrayMode)
  | unknownModel (name : String)
  | unresolvableType (type context : String)
  /-- A container whose elements expand into the container again. -/
  | endlessType (type context : String)
  | unsupportedLanguage (language : String)

namespace Fault

def code : Fault → String
  | .access _ _ => "modelgen::io::access_failed"
  | .parse _ _ => "modelgen::input::parse_failed"
  | .invalidConfig _ => "modelgen::input::invalid_config"
  | .duplicateType _ => "modelgen::input::duplicate_type"
  | .noMetadata _ => "modelgen::input::no_metadata"
  | .unsupportedNesting _ _ => "modelgen::config::unsupported_nesting"
  | .unknownEnclosing _ _ => "modelgen::config::unknown_enclosing"
  | .cyclicInheritance _ => "modelgen::config::cyclic_inheritance"
  | .duplicateClass _ _ _ => "modelgen::config::duplicate_class"
  | .missingProperty _ _ _ => "modelgen::config::missing_property"
  | .noDefaultValue _ _ _ _ => "modelgen::config::no_default_value"
  | .inconsistentArrays _ _ _ _ => "modelgen::config::inconsistent_array_comparison"
  | .unknownModel _ => "modelgen::config::unknown_model"
  | .unresolvableType _ _ => "modelgen::types::unresolvable"
  | .endlessType _ _ => "modelgen::types::endless"
  | .unsupportedLanguage _ => "modelgen::frontend::unsupported_language"

def help : Fault → Option String
  | .parse _ _ =>
    some "Metadata files must be JSON documents of the shape \x7b \"types\": [...] \x7d"
  | .noMetadata _ =>
    some "Point the metadata directory at the JSON files written by the host reflection step"
  | .unsupportedNesting _ _ =>
    some "Generation targets can only be declared on top-level or member models"
  | .duplicateClass _ _ _ => some "Give one of the targets a distinct name, prefix or suffix"
  | .noDefaultValue _ _ _ _ =>
    some ("Add an init directive for this target, or a no_init directive to make it a required " ++
      "constructor parameter")
  | .inconsistentArrays _ _ _ _ =>
    some ("Arrays that compare equal must hash equal: use the same array comparison for equals " ++
      "and hashCode")
  | .unresolvableType _ _ =>
    some ("Add a mapping for this type to the TypeScript settings, or include its declaration " ++
      "in the metadata")
  | _ => none

/-- The message. None where a part of it is decided outside this library: by the file system,
by the notation of settings, or by the spelling of a broken document. -/
def message : Fault → Option String
  | .access path .noMetadataDirectory =>
    some ("Failed to access '" ++ path ++ "': metadata directory does not exist")
  | .access _ .refused => none
  | .parse path why =>
    why.message.map fun m => "Failed to parse metadata file '" ++ path ++ "': " ++ m
  | .invalidConfig _ => none
  | .duplicateType name => some ("Type '" ++ name ++ "' is declared more than once")
  | .noMetadata path => some ("No metadata found in '" ++ path ++ "'")
  | .unsupportedNesting model shape =>
    some ("Model '" ++ model ++ "' has an unsupported nesting shape: " ++ shape)
  | .unknownEnclosing model enclosing =>
    some ("Model '" ++ model ++ "' is nested in '" ++ enclosing ++
      "', which is not part of the metadata")
  | .cyclicInheritance model => some ("Model '" ++ model ++ "' inherits from itself")
  | .duplicateClass name first second =>
    some ("Targets '" ++ first ++ "' and '" ++ second ++ "' both generate class '" ++ name ++ "'")
  | .missingProperty model property context =>
    some ("Property '" ++ property ++ "' referenced by " ++ context ++ " does not exist on '" ++
      model ++ "'")
  | .noDefaultValue model target property type =>
    some ("Cannot determine a default value for '" ++ model ++ "." ++ property ++ "' (" ++ type ++
      ") in target '" ++ target ++ "'")
  | .inconsistentArrays model target equals hash =>
    some ("Target '" ++ target ++ "' of '" ++ model ++ "' hashes arrays by " ++ hash.describe ++
      " but compares them by " ++ equals.describe)
  | .unknownModel name => some ("Unknown model: " ++ name)
  | .unresolvableType type context =>
    some ("Cannot project type '" ++ type ++ "' referenced from " ++ context)
  | .endlessType type context =>
    some ("Type '" ++ type ++ "' referenced from " ++ context ++ " contains itself without end")
  | .unsupportedLanguage language => some ("Unsupported metadata format: " ++ language)

/-- The file or directory a fault is about. -/
def path? : Fault → Option String
  | .access path _ | .parse path _ | .invalidConfig path => some path
  | _ => none

end Fault

end Scaffold

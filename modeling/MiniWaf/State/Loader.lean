import MiniWaf.Grl.Converter
import MiniWaf.Grl.Parser

/-! Loading the rule directory: `.grl` files as they are and YAML files converted. A
file that does not read, convert or parse is skipped.
-/

set_option autoImplicit false

namespace MiniWaf

open Grl

/-- A directory entry: what `is_file`, `extension` and `read_to_string` give for it. -/
structure DirFile where
  isFile : Bool
  extension : Option String
  text : Option Text

structure RulesDir where
  present : Bool
  listing : Option (List (Option DirFile))

variable (platform : Platform) (readYaml : Text → Option Yaml)

/-- The rule source a file holds, if its kind is known and it converts. -/
def grlSource (file : DirFile) (text : Text) : Option Text :=
  match file.extension.getD "" with
  | "grl" => some text
  | "yaml" | "yml" => (readYaml text).bind fun doc => (yamlToGrl platform doc).toOption
  | _ => none

def fileRules (file : DirFile) : List RuleAst :=
  if file.isFile then (((file.text.bind (grlSource platform readYaml file)).bind parse).getD []) else []

/-- All rules of the directory, in listing order; none on an I/O error. -/
def loadGrlFromDir (dir : RulesDir) : Option (List RuleAst) :=
  if dir.present then
    dir.listing.bind fun entries => (entries.mapM id).map fun files => files.flatMap (fileRules platform readYaml)
  else some []

end MiniWaf

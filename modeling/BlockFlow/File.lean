import BlockFlow.Description.Json
import BlockFlow.Description.Yaml
import BlockFlow.Config.Yaml
import BlockFlow.Error
import BlockFlow.Report

/-!
# Files

A file of module descriptions is read as JSON if its name says so, and as YAML otherwise. Files hold
UTF-8. What the program does with a file is said for any readers of the two formats; the readers of
this library, which know only a part of YAML, are one choice of them.
-/

namespace BlockFlow

/-- The name of the file that a path leads to. -/
def fileName (path : String) : List Char := (path.toList.reverse.takeWhile (· ≠ '/')).reverse

/-- What follows the last dot of a file name; a dot at the very start does not count. -/
def extension? (path : String) : Option String :=
  let reversed := (fileName path).reverse
  match reversed.dropWhile (· ≠ '.') with
  | '.' :: _ :: _ => some (String.ofList (reversed.takeWhile (· ≠ '.')).reverse)
  | _ => none

/-- The text of a file, given its content. -/
def fileText? (content : Option ByteArray) : Option String := content.bind String.fromUTF8?

/-- The module that a JSON text describes. -/
def ModuleDesc.ofJsonText (text : String) : Except AnalysisError ModuleDesc :=
  match ModuleDesc.ofJsonText? text with
  | some m => .ok m
  | none => .error .malformedJson

/-- The module that a YAML text describes. -/
def ModuleDesc.ofYamlText (text : String) : Except AnalysisError ModuleDesc :=
  match ModuleDesc.ofYamlText? text with
  | some m => .ok m
  | none => .error .malformedYaml

/-- How files are read and reports are printed in the formats that the program knows. -/
structure Formats where
  /-- The module that a JSON text describes. -/
  jsonModule : String → Except AnalysisError ModuleDesc
  /-- The module that a YAML text describes. -/
  yamlModule : String → Except AnalysisError ModuleDesc
  /-- What a YAML text says as a configuration file. -/
  yamlConfig : String → Except ConfigError Config.Document
  /-- The JSON text of reports. -/
  jsonReports : List Report → String

/-- The readers and the printer of this library. -/
def Formats.own : Formats where
  jsonModule := ModuleDesc.ofJsonText
  yamlModule := ModuleDesc.ofYamlText
  yamlConfig := Config.Document.ofYamlText
  jsonReports := Report.jsonAll

/-- The module that a file describes, given its path and its content, if there is one. -/
def ModuleDesc.ofFile (formats : Formats) (path : String) (content : Option ByteArray) :
    Except AnalysisError ModuleDesc :=
  match fileText? content with
  | none => .error .unreadable
  | some text =>
    if extension? path = some "json" then formats.jsonModule text
    else formats.yamlModule text

/-- The configuration in a file, given its content, if there is one. -/
def Config.ofFile (formats : Formats) (content : Option ByteArray) : Except ConfigError Config :=
  match fileText? content with
  | none => .error .unreadable
  | some text => do (← formats.yamlConfig text).toConfig

end BlockFlow

import ShellLine.Analysis.Argv
import ShellLine.Analysis.Feature
import ShellLine.Text.Quoted

set_option autoImplicit false

namespace ShellLine

structure Report where
  features : List Feature
  literalArgv : Option (List String)
deriving DecidableEq, Repr

def Node.describe (root : Node) : Report := ⟨root.features, root.literalArgv?⟩

namespace Report

def featureLine (features : List Feature) : List Char :=
  if features = [] then "none".toList
  else ", ".toList.intercalate (features.map fun feature => feature.tag.toList)

def argvLine : Option (List String) → List Char
  | some argv => Text.quoteList argv
  | none => "not literal".toList

-- Two lines: the features, then the argument vector.
def text (report : Report) : String :=
  String.ofList <|
    "features: ".toList ++ featureLine report.features ++ "\nargv: ".toList ++
      argvLine report.literalArgv ++ ['\n']

end Report

end ShellLine

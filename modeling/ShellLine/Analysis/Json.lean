import ShellLine.Analysis.Report
import ShellLine.Json.Value

set_option autoImplicit false

namespace ShellLine

def Report.toJson (report : Report) : Json :=
  let features := report.features.map fun feature => Json.string feature.tag.toList
  let argv :=
    match report.literalArgv with
    | some argv => Json.array (.ofList (argv.map fun argument => Json.string argument.toList))
    | none => Json.null
  .object (.cons "features".toList (.array (.ofList features))
    (.cons "literal_argv".toList argv .nil))

end ShellLine

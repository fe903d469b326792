import Chronicle.Report.Csv
import Chronicle.Report.Document
import Chronicle.Report.Plain

/-!
Rendering an answer in the chosen format.
-/

namespace Chronicle

/-- Every rendering ends with a line feed unless it is empty. -/
def Report.render (answer : Answer) (summary : Summary) : Format → String
  | .text => Report.plain answer summary
  | .json => (Report.Document.ofAnswer answer summary).write ++ "\n"
  | .csv => Report.Csv.write answer summary

end Chronicle

import GraphqlCodegen.Script.Syntax
import GraphqlCodegen.Text.Lines
/-!
# Code of the generated client

The blocks of code that clients carry are given line by line. The brackets `⟪` and `⟫` stand for
the braces of the code.
-/

namespace GraphqlCodegen.Client

def brace (c : Char) : Char :=
  if c = '⟪' then '{' else if c = '⟫' then '}' else c

/-- Lines of code with a line feed between each two. -/
def code (lines : List String) : String :=
  String.ofList ((Text.joined "\n" lines).toList.map brace)

end GraphqlCodegen.Client

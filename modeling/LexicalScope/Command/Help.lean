import LexicalScope.Command.Arguments

/-! # Help texts -/

namespace LexicalScope.Command

def overviewText : String :=
  "usage: freevars [-h] [--verbose] \x7bscan,parse\x7d ...\n\n" ++
  "List free variables referenced by JavaScript code\n\n" ++
  "positional arguments:\n" ++
  "  \x7bscan,parse\x7d\n" ++
  "    scan        List free variables of a JS file\n" ++
  "    parse       Dump the parsed AST as JSON\n\n" ++
  "options:\n" ++
  "  -h, --help    show this help message and exit\n" ++
  "  --verbose     Enable debug logging.\n"

def scanText : String :=
  "usage: freevars scan [-h] [--module] [--host-embedded] [--json] input\n\n" ++
  "positional arguments:\n" ++
  "  input            Path to the JavaScript file\n\n" ++
  "options:\n" ++
  "  -h, --help       show this help message and exit\n" ++
  "  --module         Parse the input as an ES module (enables import/export\n" ++
  "                   syntax).\n" ++
  "  --host-embedded  Treat top-level var and function declarations as globals,\n" ++
  "                   as browsers do.\n" ++
  "  --json           Emit JSON output.\n"

def parseHelpText : String :=
  "usage: freevars parse [-h] [--module] input\n\n" ++
  "positional arguments:\n" ++
  "  input       Path to the JavaScript file\n\n" ++
  "options:\n" ++
  "  -h, --help  show this help message and exit\n" ++
  "  --module    Parse the input as an ES module (enables import/export syntax).\n"

def Topic.text : Topic → String
  | .overview => overviewText
  | .scan => scanText
  | .parse => parseHelpText

end LexicalScope.Command

import Wireform.Command.Arguments

/-!
# What the program says about itself
-/

namespace Wireform.Command

def helpText : String :=
  "compile JSON shape declarations into JSON Schema or Rust, or check a JSON\n" ++
  "document against a declared type\n" ++
  "\n" ++
  "Usage: json-shapes [OPTIONS] <COMMAND>\n" ++
  "\n" ++
  "Commands:\n" ++
  "  schema  write one `<module>_schema.json` per module\n" ++
  "  rust    write one `<module>.rs` per module\n" ++
  "  check   decode a JSON document, re-encode it and report whether the round trip is exact\n" ++
  "  help    print this message\n" ++
  "\n" ++
  "Options:\n" ++
  "  -v, --verbose            more logging on stderr\n" ++
  "      --max-depth <N>      deepest nesting a decode will follow [default: 128]\n" ++
  "  -i, --input <INPUT>...   shape sources, paths or quoted glob patterns\n" ++
  "  -o, --out <OUT>          output directory (stdout if omitted)\n" ++
  "      --module <MODULE>    module declaring the type to check\n" ++
  "      --type <TYPE>        declaration name (`Name` or `module.Name`)\n" ++
  "      --json <JSON>        JSON document to check\n" ++
  "  -h, --help               print help\n" ++
  "  -V, --version            print version\n"

def versionText : String := "json-shapes 0.1.0\n"

def Usage.text : Usage → String
  | .help => helpText
  | .version => versionText
  | .invalid => "error: invalid arguments\n\nFor more information, try '--help'.\n"

end Wireform.Command

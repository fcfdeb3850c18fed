import IjvmAsm.CommandLine.Tool
import IjvmAsm.Image.Format
import IjvmAsm.Image.Listing

/-!
# The inspector as a tool

Prints an image: its fields, its constants, the listing of its text with the names of methods, and
its symbols.
-/

namespace IjvmAsm

def ImageError.causes (e : ImageError) : List String := e.message :: e.reading?.toList

namespace CommandLine.Inspector

structure Options where
  image : String
  config : Option String
  verbosity : Verbosity

def specs : List OptionSpec :=
  [⟨"config", some 'c', .value false⟩, ⟨"verbose", some 'v', .count⟩,
    ⟨"help", some 'h', .help⟩, ⟨"version", some 'V', .version⟩]

def Options.of (image : String) (g : Given) : Options :=
  { image, config := g.value? "config", verbosity := .ofCount g.count }

def constantLines (index : Nat) : List Int32 → List String
  | [] => []
  | value :: rest =>
    (s!"  #{Numeral.left 4 index} {Numeral.right 11 value.toInt}  " ++
      s!"0x{Numeral.hex 8 value.toUInt32.toNat}") :: constantLines (index + 1) rest

/-- The lines for a line of a listing, the first of which names the method that begins there. -/
def textLines (image : Image) (line : ListingLine) : List String :=
  ((image.methodAt line.offset).map fun name => name ++ ":").toList ++ ["  " ++ line.text]

def symbolLine (symbol : Symbol) : String :=
  s!"  {Numeral.hex 4 symbol.offset.toNat}  {symbol.name}"

def symbolLines (symbols : Symbols) : List String :=
  ["", s!"method symbols ({symbols.methods.length}):"] ++ symbols.methods.map symbolLine ++
    [s!"label symbols ({symbols.labels.length}):"] ++ symbols.labels.map symbolLine

def report (image : Image) (listing : List ListingLine) : List String :=
  [s!"constant pool offset: 0x{Numeral.hex 8 image.poolOffset.toNat}",
    s!"data base:            0x{Numeral.hex 8 image.dataBase.toNat}",
    s!"text size:            {image.text.length} bytes", "",
    s!"constants ({image.constants.length}):"] ++ constantLines 0 image.constants ++
    ["", "text:"] ++ listing.flatMap (textLines image) ++
    (image.symbols.map symbolLines).getD []

def inspect (o : Options) (stderr : String) (set : InstructionSet) (content : Bytes) : Outcome :=
  match Image.parse content with
  | .error e => failure [] stderr (s!"reading image {o.image}" :: e.causes)
  | .ok image =>
    match image.listing set with
    | .error e => failure [] stderr e.causes
    | .ok listing =>
      { code := 0, stdout := Utf8.encode ((report image listing).foldl addLine ""), stderr }

def run (o : Options) (reader : Reader) : Run :=
  let (journal, loaded) := loadSet reader "loading instruction set" o.config
  match loaded with
  | .error causes => .ended (failure [] (logText o.verbosity journal) causes)
  | .ok set =>
    let loaded : Event :=
      .remark .debug s!"Using instruction set `{set.name}` ({set.size} operations)"
    let stderr := logText o.verbosity (journal.push loaded)
    let context := s!"reading image {o.image}"
    match reader o.image with
    | .error e => .ended (failure [] stderr (context :: e.causes))
    | .ok .directory => .ended (failure [] stderr (context :: FileError.isADirectory.causes))
    | .ok (.file content) => .ended (inspect o stderr set content)

def help : String :=
  "Inspect an IJVM image: header, constant pool, disassembly and debug symbols\n\n" ++
  "Usage: ijvm-dump [OPTIONS] <IMAGE>\n\n" ++
  "Arguments:\n" ++
  "  <IMAGE>  Image to inspect\n\n" ++
  "Options:\n" ++
  "  -c, --config <FILE>  Instruction set definition used for disassembly\n" ++
  "  -v, --verbose...     Increase logging verbosity (-v, -vv, -vvv)\n" ++
  "  -h, --help           Print help\n" ++
  "  -V, --version        Print version\n"

end CommandLine.Inspector

def CommandLine.inspector : CommandLine.Tool where
  name := "ijvm-dump"
  help := CommandLine.Inspector.help
  usage := "ijvm-dump [OPTIONS] <IMAGE>"
  specs := CommandLine.Inspector.specs
  plan image given :=
    let o := CommandLine.Inspector.Options.of image given
    { paths := o.config.toList ++ [o.image], run := CommandLine.Inspector.run o }

end IjvmAsm

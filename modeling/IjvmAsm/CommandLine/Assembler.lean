import IjvmAsm.Assembly.Run
import IjvmAsm.CommandLine.Tool
import IjvmAsm.Program.Document
import IjvmAsm.Program.Emission

/-!
# The assembler as a tool

Assembles a source and stores the image, or writes it to the standard output. Nothing is stored
unless the image is complete, and nothing is stored of a source with errors unless this is forced.
-/

namespace IjvmAsm

def Assembly.Halt.causes (e : Assembly.Halt) : List String :=
  match e with
  | .unexpectedEnd .. => [e.message]
  | .methodHeader _ _ cause => [e.message, cause.message]
  | .undecodable => [e.message, Text.undecodable]

namespace CommandLine.Assembler

structure Options where
  input : String
  config : Option String
  output : String
  force : Bool
  autoWide : Bool
  symbols : Bool
  verbosity : Verbosity
  dumpProgram : Bool

def stdoutPath : String := "-"

def defaultOutput : String := "out.ijvm"

def specs : List OptionSpec :=
  [⟨"config", some 'c', .value false⟩, ⟨"output", some 'o', .value true⟩,
    ⟨"force", some 'f', .flag⟩, ⟨"auto-wide", some 'w', .flag⟩,
    ⟨"debug-symbols", some 'd', .flag⟩, ⟨"verbose", some 'v', .count⟩,
    ⟨"dump-program", none, .flag⟩, ⟨"help", some 'h', .help⟩, ⟨"version", some 'V', .version⟩]

def Options.of (input : String) (g : Given) : Options :=
  { input
    config := g.value? "config"
    output := (g.value? "output").getD defaultOutput
    force := g.has "force"
    autoWide := g.has "auto-wide"
    symbols := g.has "debug-symbols"
    verbosity := .ofCount g.count
    dumpProgram := g.has "dump-program" }

def despite (o : Options) (errors : Nat) : String :=
  if errors = 0 then "" else s!"Wrote {o.output} despite {errors} error(s)\n"

/-- Hands the image over; `stdout` and `stderr` are what was printed before. -/
def deliver (o : Options) (stdout : Bytes) (stderr : String) (errors : Nat) (image : Bytes) : Run :=
  let wrote : Journal := #[.remark .info s!"Wrote {image.length} byte(s) to {o.output}"]
  let ending := stderr ++ despite o errors ++ logText o.verbosity wrote
  if o.output = stdoutPath then
    .printing (stdout ++ image) ⟨0, [], ending⟩ fun e => failure [] stderr [e.message]
  else
    .storing o.output image ⟨0, stdout, ending⟩ fun e =>
      failure stdout stderr [s!"Failed to write {o.output}", e.message]

def emit (o : Options) (stderr : String) (errors : Nat) (program : Program) : Run :=
  let stdout := if o.dumpProgram then Utf8.encode (addLine "" program.document.pretty) else []
  let output := program.render o.force o.symbols
  let stderr := stderr ++ logText o.verbosity output.journal
  match output.result with
  | .error e => .ended (failure stdout stderr [e.message])
  | .ok image => deliver o stdout stderr errors image

def assemble (o : Options) (stderr : String) (set : InstructionSet) (source : Bytes) : Run :=
  let outcome := Assembly.run ⟨Path.shownName o.input, set, o.autoWide⟩ source
  let diagnostics := (outcome.diagnostics.map Diagnostic.text).foldl addLine ""
  let stderr := stderr ++ logText o.verbosity outcome.journal ++ diagnostics
  match outcome.result with
  | .error e => .ended (failure [] stderr e.causes)
  | .ok program =>
    match outcome.failure?, o.force with
    | some text, false => .ended (failure [] stderr [text])
    | _, _ => emit o stderr outcome.errors program

def run (o : Options) (reader : Reader) : Run :=
  if o.dumpProgram ∧ o.output = stdoutPath then
    .ended (failure [] ""
      ["--dump-program cannot be combined with writing the image to standard output"])
  else
    let (journal, loaded) := loadSet reader "Failed to load instruction set" o.config
    let stderr := logText o.verbosity journal
    match loaded with
    | .error causes => .ended (failure [] stderr causes)
    | .ok set =>
      match reader o.input with
      | .error e => .ended (failure [] stderr [s!"Failed to open {o.input}", e.message])
      | .ok .directory => .ended (failure [] stderr FileError.isADirectory.causes)
      | .ok (.file source) => assemble o stderr set source

def help : String :=
  "Assemble JAS sources into IJVM images\n\n" ++
  "Usage: jasm [OPTIONS] <INPUT>\n\n" ++
  "Arguments:\n" ++
  "  <INPUT>  JAS source file\n\n" ++
  "Options:\n" ++
  "  -c, --config <FILE>  Instruction set definition, the standard IJVM set when omitted\n" ++
  "  -o, --output <FILE>  Where to write the image, `-` for standard output " ++
  "[default: out.ijvm]\n" ++
  "  -f, --force          Write the image even if errors were reported\n" ++
  "  -w, --auto-wide      Insert WIDE prefixes for variable slots above 255\n" ++
  "  -d, --debug-symbols  Append method and label debug symbols to the image\n" ++
  "  -v, --verbose...     Increase logging verbosity (-v, -vv, -vvv)\n" ++
  "      --dump-program   Print the linked program as JSON\n" ++
  "  -h, --help           Print help\n" ++
  "  -V, --version        Print version\n"

end CommandLine.Assembler

def CommandLine.assembler : CommandLine.Tool where
  name := "jasm"
  help := CommandLine.Assembler.help
  usage := "jasm [OPTIONS] <INPUT>"
  specs := CommandLine.Assembler.specs
  plan input given :=
    let o := CommandLine.Assembler.Options.of input given
    { paths := o.config.toList ++ [o.input], run := CommandLine.Assembler.run o }

end IjvmAsm

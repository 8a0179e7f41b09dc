import PlanarLP.Json.Decode
import PlanarLP.Json.Encode
import PlanarLP.Report

/-! The command line: what the arguments ask for, and the text and exit code that answer it.
Files are read by a given function, so that an answer is a value. -/

namespace PlanarLP.CommandLine

structure SolveOptions where
  constraints : List String := []
  objective : Option String := none
  sense : String := "max"
  assumeNonnegative : Bool := true
  viewport : Option String := none
  /-- A file that holds the whole request. -/
  request : Option String := none
  format : String := "pretty"
deriving DecidableEq, Repr

inductive Command where
  | solve (options : SolveOptions)
  | check (sources : List String)
deriving DecidableEq, Repr

/-- Why a file was not read. -/
inductive FileError where
  | notFound
  | other (reason : String)
deriving DecidableEq, Repr

def FileError.message : FileError → String
  | notFound => "Error reading file: No such file or directory (os error 2)"
  | other reason => s!"Error reading file: {reason}"

structure Output where
  exitCode : Nat
  stdout : String
  stderr : String
deriving DecidableEq, Repr

/-- Set the option with a name, long or short; none if no option has it. -/
def SolveOptions.set? (o : SolveOptions) (name value : String) : Option SolveOptions :=
  match name with
  | "--constraint" | "-c" => some { o with constraints := o.constraints ++ [value] }
  | "--objective" | "-o" => some { o with objective := some value }
  | "--sense" | "-s" => some { o with sense := value }
  | "--viewport" => some { o with viewport := some value }
  | "--request" => some { o with request := some value }
  | "--format" | "-f" => some { o with format := value }
  | _ => none

/-- An argument that holds both an option and its value: `--name=value`, `-nvalue` or
`-n=value`. -/
def assignment? (arg : String) : Option (String × String) :=
  match arg.toList with
  | '-' :: '-' :: cs =>
    let name := String.ofList ('-' :: '-' :: cs.takeWhile (· != '='))
    match cs.dropWhile (· != '=') with
    | [] => none
    | _ :: value => some (name, String.ofList value)
  | '-' :: n :: '=' :: value => some (String.ofList ['-', n], String.ofList value)
  | '-' :: n :: c :: value => some (String.ofList ['-', n], String.ofList (c :: value))
  | _ => none

/-- The options that arguments set. A value stands in the same argument or in the next. -/
def solveOptions? (o : SolveOptions) : List String → Option SolveOptions
  | [] => some o
  | "--no-nonnegative" :: args => solveOptions? { o with assumeNonnegative := false } args
  | arg :: args =>
    match assignment? arg with
    | some (name, value) => (o.set? name value).bind fun o => solveOptions? o args
    | none =>
      match args with
      | [] => none
      | value :: args => (o.set? arg value).bind fun o => solveOptions? o args

def command? : List String → Option Command
  | "solve" :: args => (solveOptions? {} args).map .solve
  | "check" :: args => some (.check (args.erase "--"))
  | _ => none

def unlines (lines : List String) : String := String.join (lines.map (· ++ "\n"))

def succeed (lines : List String) : Output := ⟨0, unlines lines, ""⟩

def fail (message : String) : Output := ⟨1, "", unlines [message]⟩

/-- One bound of a window; the error quotes what is none. -/
def bound (part : List Char) : Except String Float :=
  let word := Text.trim part
  match Binary64.ofText? word with
  | some x => .ok x
  | none =>
    let reason :=
      if word.isEmpty then "cannot parse float from empty string" else "invalid float literal"
    .error s!"'{String.ofList word}': {reason}"

/-- A window given as `xmin,xmax,ymin,ymax`. -/
def window (text : String) : Except String (Viewport Float) := do
  let bounds ← (Text.fields (· == ',') text.toList).mapM bound
  match bounds with
  | [xmin, xmax, ymin, ymax] =>
    (Viewport.check ⟨xmin, xmax, ymin, ymax⟩).mapError Viewport.Defect.message
  | _ => .error s!"expected 4 numbers, got {bounds.length}"

/-- The request that the options make up or name a file of. -/
def SolveOptions.toRequest (o : SolveOptions) (read : String → Except FileError String) :
    Except String (Request Float) :=
  match o.request with
  | none => .ok {
      constraints := o.constraints
      objective := o.objective
      sense := o.sense
      assumeNonnegative := o.assumeNonnegative }
  | some path => do
    let text ← (read path).mapError FileError.message
    match Json.requestOf? text with
    | some request => return request
    | none => .error "Invalid request"

/-- The description that the options ask for, in the window they give. -/
def SolveOptions.solve (o : SolveOptions) (read : String → Except FileError String) :
    Except String (Description Float) := do
  let request ← o.toRequest read
  let request ← match o.viewport with
    | none => pure request
    | some text => do
      let w ← (window text).mapError fun e => s!"Invalid viewport: {e}"
      pure { request with viewport := some w }
  request.solve.mapError fun e => s!"Error: {e.message}"

def present (format : String) (d : Description Float) : List String :=
  if format = "json" then [(Json.Value.description d).write .indented] else Report.lines d

/-- How a constraint reads, and whether it parses. -/
def checkLine (source : String) (number : Nat) : Bool × String :=
  let parsed : Except (Formula.ParseError Float) (Constraint Float) := Constraint.parse source
  match parsed with
  | .ok k => (true, s!"✓ {number}: {Report.canonicalText k}")
  | .error e => (false, s!"✗ {number}: {e.message}")

def checkAll (sources : List String) : Output :=
  let checks := sources.zipIdx.map fun (source, i) => checkLine source (i + 1)
  ⟨if checks.all Prod.fst then 0 else 1, unlines (checks.map Prod.snd), ""⟩

def Command.run (c : Command) (read : String → Except FileError String) : Output :=
  match c with
  | .solve o =>
    match o.solve read with
    | .ok d => succeed (present o.format d)
    | .error e => fail e
  | .check sources => checkAll sources

def usage : String :=
  "Usage: planarlp solve [--constraint=TEXT]... [--objective=TEXT] [--sense=max|min]\n" ++
  "         [--no-nonnegative] [--viewport=XMIN,XMAX,YMIN,YMAX] [--request=FILE]\n" ++
  "         [--format=pretty|json]\n" ++
  "       planarlp check [--] TEXT..."

/-- The answer to some arguments. -/
def run (args : List String) (read : String → Except FileError String) : Output :=
  match command? args with
  | some c => c.run read
  | none => ⟨2, "", unlines [usage]⟩

end PlanarLP.CommandLine

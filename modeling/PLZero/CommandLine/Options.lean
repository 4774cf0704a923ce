import PLZero.Target

/-! Command-line options. An option is written `--name value`, `--name=value`, `-n value` or `-nvalue`,
short switches can share one dash, and all but `--break` may be given once. -/

namespace PLZero.CommandLine

inductive Key
  | input | output | emit | stages | target | run | readValue | debug | breakpoint | step | verbose
  | help | version
  deriving DecidableEq, Repr

namespace Key

def longNames : List (String × Key) :=
  [("input", input), ("output", output), ("emit", emit), ("stages", stages), ("target", target),
   ("run", run), ("read-value", readValue), ("debug", debug), ("break", breakpoint), ("step", step),
   ("verbose", verbose), ("help", help), ("version", version)]

def shortNames : List (Char × Key) :=
  [('i', input), ('o', output), ('v', verbose), ('h', help), ('V', version)]

def takesValue : Key → Bool
  | input | output | emit | stages | target | readValue | breakpoint => true
  | run | debug | step | verbose | help | version => false

/-- The next argument is the value, whatever it looks like. -/
def takesAnything : Key → Bool
  | readValue => true
  | _ => false

end Key

inductive UsageError
  | unknownArgument
  | missingValue
  | malformedValue
  | repeated
  | unneededValue
  | help
  | version
  deriving DecidableEq, Repr

structure Options where
  input : Option String
  output : Option String
  emit : String
  stages : Option String
  target : Target
  run : Bool
  readValue : Int32
  debug : Bool
  breakpoints : List Nat
  step : Bool
  verbose : Bool
  deriving DecidableEq, Repr

def Options.default : Options :=
  ⟨none, none, "wat", none, .stackModule, false, 1, false, [], false, false⟩

structure Reading where
  options : Options
  given : List Key
  /-- The option read last, if it takes a value from the next argument, and that value. -/
  pending : Option (Key × Option String)

namespace Reading

def initial : Reading := ⟨.default, [], none⟩

def nonEmpty (value : String) : Except UsageError String :=
  if value = "" then .error .missingValue else .ok value

def wellFormed (value : Option α) : Except UsageError α :=
  match value with
  | some a => .ok a
  | none => .error .malformedValue

/-- The options with one more; switches pass an empty value. -/
def assign (o : Options) (value : String) : Key → Except UsageError Options
  | .input => do return { o with input := some (← nonEmpty value) }
  | .output => do return { o with output := some (← nonEmpty value) }
  | .emit => .ok { o with emit := value }
  | .stages => .ok { o with stages := some value }
  | .target => do return { o with target := ← wellFormed (Target.ofName? value) }
  | .run => .ok { o with run := true }
  | .readValue => do return { o with readValue := ← wellFormed (Text.readWord value.toList) }
  | .debug => .ok { o with debug := true }
  | .breakpoint => do
    return { o with breakpoints := o.breakpoints ++ [← wellFormed (Text.readCount value.toList)] }
  | .step => .ok { o with step := true }
  | .verbose => .ok { o with verbose := true }
  | .help => .error .help
  | .version => .error .version

def accept (r : Reading) (key : Key) (value : Option String) : Except UsageError Reading := do
  if key.takesValue && value.isNone then .error .missingValue
  else if key ∈ r.given && key ≠ .breakpoint then .error .repeated
  else return { r with options := ← assign r.options (value.getD "") key, given := key :: r.given }

def settle (r : Reading) : Except UsageError Reading :=
  match r.pending with
  | some (key, value) => { r with pending := none }.accept key value
  | none => .ok r

def option (r : Reading) (key : Key) (attached : Option String) : Except UsageError Reading := do
  let r ← r.settle
  if key.takesValue && attached.isNone then return { r with pending := some (key, none) }
  else r.accept key attached

def splitValue (arg : List Char) : List Char × Option (List Char) :=
  match arg.dropWhile (· != '=') with
  | _ :: value => (arg.takeWhile (· != '='), some value)
  | [] => (arg, none)

def long (r : Reading) (arg : List Char) : Except UsageError Reading :=
  let (name, value) := splitValue arg
  match Key.longNames.lookup (String.ofList name) with
  | some key =>
    if !key.takesValue && value.isSome then .error .unneededValue
    else r.option key (value.map String.ofList)
  | none => .error .unknownArgument

/-- Short names behind one dash; the first that takes a value has the rest as its value. -/
def short (r : Reading) : List Char → Except UsageError Reading
  | [] => .ok r
  | c :: rest =>
    match Key.shortNames.lookup c with
    | some key =>
      if key.takesValue then
        match rest with
        | [] => r.option key none
        | '=' :: value => r.option key (some (String.ofList value))
        | value => r.option key (some (String.ofList value))
      else do (← r.option key none).short rest
    | none => .error .unknownArgument

def waiting (r : Reading) : Option Key :=
  match r.pending with
  | some (key, none) => some key
  | _ => none

/-- An argument that starts no option: the value that the last option waits for. -/
def plain (r : Reading) (arg : String) : Except UsageError Reading :=
  match r.waiting with
  | some key => .ok { r with pending := some (key, some arg) }
  | none => .error .unknownArgument

def argument (r : Reading) (arg : String) : Except UsageError Reading :=
  if r.waiting.any Key.takesAnything then r.plain arg
  else match arg.toList with
    | '-' :: '-' :: name => r.long name
    | '-' :: c :: names => r.short (c :: names)
    | _ => r.plain arg

/-- Behind `--` no option is read, and nothing else is taken. -/
def arguments (r : Reading) : List String → Except UsageError Reading
  | [] => r.settle
  | arg :: rest =>
    if arg = "--" && !r.waiting.any Key.takesAnything then
      if rest.isEmpty then r.settle else .error .unknownArgument
    else do (← r.argument arg).arguments rest

end Reading

def Options.ofArgs (args : List String) : Except UsageError Options := do
  return (← Reading.initial.arguments args).options

end PLZero.CommandLine

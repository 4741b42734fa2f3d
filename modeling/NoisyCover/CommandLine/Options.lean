import NoisyCover.Text.Digit

/-!
# Command-line options

An option is written with one of its spellings, which for a long one may be cut short as long as
only one spelling begins like that.  Its argument follows, or is attached with an equals sign; two
dashes attached stand for no argument at all.  One-letter options take no arguments and may be run
together, with or without an equals sign after the first.  There are no arguments but those of
options; a word that looks like a negative number is an argument.
-/

namespace NoisyCover.CommandLine

inductive Arity where
  | none
  | one
  | many
  deriving DecidableEq, Repr

/-- An option: its spellings, the first of which names it, and its arity. -/
structure CommandOption where
  spellings : List String
  arity : Arity

namespace CommandOption

def name (o : CommandOption) : String := o.spellings.headD ""

/-- Every command line can be asked for help. -/
def help : CommandOption := ⟨["--help", "-h"], .none⟩

end CommandOption

inductive Stop where
  | usage
  | help
  deriving DecidableEq, Repr

/-- What is attached to an option in the same word. -/
inductive Attached where
  | nothing
  /-- A text after an equals sign. -/
  | value (text : String)
  /-- Letters after a one-letter option. -/
  | letters (letters : List Char)
  deriving DecidableEq, Repr

inductive Word where
  | argument (text : String)
  /-- An option, if known, with what is attached to it. -/
  | option (known : Option CommandOption) (attached : Attached)

/-- An option that a word can stand for, with what is attached to it. -/
structure Reading where
  option : CommandOption
  attached : Attached

/-- The text before the first equals sign, and the text after it, if there is one. -/
def splitEquals (s : String) : String × Attached :=
  let cs := s.toList
  match cs.dropWhile (· != '=') with
  | [] => (s, .nothing)
  | _ :: rest => (String.ofList (cs.takeWhile (· != '=')), .value (String.ofList rest))

/-- Whether a text is a minus sign with digits, and perhaps a point with digits after it.  A line
break may follow. -/
def looksNegative (s : String) : Bool :=
  let isDigit (c : Char) : Bool := (Text.digit? c).isSome
  let cs := s.toList
  match if cs.getLast? = some '\n' then cs.dropLast else cs with
  | '-' :: rest =>
    match rest.dropWhile isDigit with
    | [] => !rest.isEmpty
    | '.' :: fraction => !fraction.isEmpty && fraction.all isDigit
    | _ => false
  | _ => false

def spelled (options : List CommandOption) : List (CommandOption × String) :=
  options.flatMap fun o => o.spellings.map fun s => (o, s)

/-- The ways in which a word can be read as an option that is not spelled out. -/
def readings (options : List CommandOption) (s : String) : List Reading :=
  if s.startsWith "--" then
    let (start, attached) := splitEquals s
    (spelled options).filterMap fun (o, spelling) =>
      if spelling.startsWith start then some ⟨o, attached⟩ else none
  else
    let short := String.ofList (s.toList.take 2)
    (spelled options).filterMap fun (o, spelling) =>
      if spelling == short then some ⟨o, .letters (s.toList.drop 2)⟩
      else if spelling.startsWith s then some ⟨o, .nothing⟩
      else none

def optionSpelled? (options : List CommandOption) (s : String) : Option CommandOption :=
  options.find? (fun o => o.spellings.contains s)

def classify (options : List CommandOption) (s : String) : Except Stop Word :=
  if !s.startsWith "-" || s == "-" then .ok (.argument s)
  else
    match optionSpelled? options s with
    | some o => .ok (.option (some o) .nothing)
    | none =>
      match splitEquals s with
      | (start, .value text) =>
        match optionSpelled? options start with
        | some o =>
          if start.startsWith "--" || text.isEmpty then .ok (.option (some o) (.value text))
          else .ok (.option (some o) (.letters text.toList))
        | none => fromReadings
      | _ => fromReadings
where
  /-- A word that is not spelled out may be cut short, a negative number, a phrase, or unknown. -/
  fromReadings : Except Stop Word :=
    match readings options s with
    | [r] => .ok (.option (some r.option) r.attached)
    | _ :: _ :: _ => .error .usage
    | [] =>
      if looksNegative s || s.toList.contains ' ' then .ok (.argument s)
      else .ok (.option none .nothing)

/-- The words of a command line.  After two dashes alone, all words are arguments. -/
def words (options : List CommandOption) : List String → Except Stop (List Word)
  | [] => .ok []
  | s :: rest => do
    if s = "--" then return .option none .nothing :: rest.map .argument
    let word ← classify options s
    let more ← words options rest
    return word :: more

structure Clause where
  known : Option CommandOption
  attached : Attached
  arguments : List String

/-- The arguments before the first option, and every option with the arguments that follow it. -/
def clauses : List Word → List String × List Clause
  | [] => ([], [])
  | .argument a :: rest => let (arguments, cs) := clauses rest; (a :: arguments, cs)
  | .option known attached :: rest =>
    let (arguments, cs) := clauses rest
    ([], ⟨known, attached, arguments⟩ :: cs)

abbrev Given := CommandOption × List String

/-- The one-letter options that letters stand for. -/
def fromLetters (options : List CommandOption) (letters : List Char) : Except Stop (List Given) :=
  letters.mapM fun l =>
    match optionSpelled? options (String.ofList ['-', l]) with
    | some o => .ok (o, [])
    | none => .error .usage

def attachedArgument (text : String) : List String := if text = "--" then [] else [text]

/-- The options of one clause with their arguments, and whether something is left over. -/
def Clause.given (options : List CommandOption) (c : Clause) :
    Except Stop (List Given × Bool) :=
  match c.known with
  | none => .ok ([], true)
  | some o =>
    let more := !c.arguments.isEmpty
    match o.arity, c.attached with
    | .none, .nothing => .ok ([(o, [])], more)
    | .none, .value _ => .error .usage
    | .none, .letters letters =>
      (fromLetters options letters).map fun others => ((o, []) :: others, more)
    | .one, .nothing =>
      match c.arguments with
      | a :: rest => .ok ([(o, [a])], !rest.isEmpty)
      | [] => .error .usage
    | .many, .nothing => .ok ([(o, c.arguments)], false)
    | _, .value a => .ok ([(o, attachedArgument a)], more)
    | _, .letters letters => .ok ([(o, attachedArgument (String.ofList letters))], more)

/-- Reads a command line into settings, from left to right, so that of a repeated option the last
one counts.  `apply` takes an option's name and its arguments, and refuses arguments that are not
right. -/
def read {S : Type} (options : List CommandOption) (apply : String → List String → S → Option S)
    (start : S) (line : List String) : Except Stop S := do
  let all := CommandOption.help :: options
  let (leading, found) := clauses (← words all line)
  let (settings, extra) ← found.foldlM
    (fun (settings, extra) c => do
      let (given, left) ← c.given all
      let settings ← given.foldlM
        (fun settings (o, arguments) =>
          if o.name == CommandOption.help.name then .error .help
          else
            match apply o.name arguments settings with
            | some settings => .ok settings
            | none => .error .usage)
        settings
      return (settings, extra || left))
    (start, !leading.isEmpty)
  if extra then .error .usage else .ok settings

end NoisyCover.CommandLine

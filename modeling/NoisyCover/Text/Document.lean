import NoisyCover.Quantity

/-!
# Structured documents

Reports are documents of nested lists and objects.  They are written with one entry a line, indented
by two blanks a level; a list or object without entries is written on one line.
-/

namespace NoisyCover.Text

inductive Document where
  | null
  | truth (b : Bool)
  | number (q : Quantity)
  | text (s : String)
  | list (entries : List Document)
  /-- Named entries in the order in which they are written. -/
  | object (fields : List (String × Document))

namespace Document

/-- A text in quotes; a quote or a backslash inside it is escaped. -/
def quoted (s : String) : String :=
  "\"" ++ String.ofList (s.toList.flatMap fun c => if c = '"' ∨ c = '\\' then ['\\', c] else [c]) ++
    "\""

/-- A line break and the blanks of a level. -/
def newline (level : Nat) : String := "\n" ++ String.ofList (List.replicate (2 * level) ' ')

/-- Entries between two brackets, one a line. -/
def block (left right : String) (level : Nat) (entries : List String) : String :=
  if entries.isEmpty then left ++ right
  else left ++ newline (level + 1) ++ ("," ++ newline (level + 1)).intercalate entries ++
    newline level ++ right

mutual

def render (level : Nat) : Document → String
  | .null => "null"
  | .truth b => if b then "true" else "false"
  | .number q => q.text
  | .text s => quoted s
  | .list entries => block "[" "]" level (renderEntries (level + 1) entries)
  | .object fields => block "\x7b" "\x7d" level (renderFields (level + 1) fields)

def renderEntries (level : Nat) : List Document → List String
  | [] => []
  | d :: rest => render level d :: renderEntries level rest

def renderFields (level : Nat) : List (String × Document) → List String
  | [] => []
  | (name, d) :: rest => (quoted name ++ ": " ++ render level d) :: renderFields level rest

end

end Document

end NoisyCover.Text

/-!
# JSON

JSON values and their printed form: two blanks per level, one element or member per line, and
in strings only quotes, backslashes and control characters escaped.
-/

namespace WitnessReplay

/-- A JSON value. Objects keep the order of their members. -/
inductive Json where
  | null
  | bool (b : Bool)
  /-- A number by its text. -/
  | number (text : String)
  | string (s : String)
  | array (elements : List Json)
  | object (members : List (String × Json))
deriving Repr, Inhabited

namespace Json

def ofOption : Option String → Json
  | some s => string s
  | none => null

/-- The member of an object with the given name; of several the last one counts. -/
def member? (j : Json) (name : String) : Option Json :=
  match j with
  | object members => (members.reverse.find? fun m => m.1 = name).map (·.2)
  | _ => none

def hexDigit (n : Nat) : Char :=
  if n < 10 then Char.ofNat ('0'.toNat + n) else Char.ofNat ('a'.toNat + (n - 10))

def escapeChar (c : Char) : List Char :=
  if c = '"' then ['\\', '"']
  else if c = '\\' then ['\\', '\\']
  else if c = '\x08' then ['\\', 'b']
  else if c = '\x0c' then ['\\', 'f']
  else if c = '\n' then ['\\', 'n']
  else if c = '\r' then ['\\', 'r']
  else if c = '\t' then ['\\', 't']
  else if c.toNat < 0x20 then
    ['\\', 'u', '0', '0', hexDigit (c.toNat / 16), hexDigit (c.toNat % 16)]
  else [c]

def quote (s : String) : String :=
  String.ofList ('"' :: s.toList.flatMap escapeChar ++ ['"'])

def newLine (level : Nat) : String :=
  String.ofList ('\n' :: List.replicate (2 * level) ' ')

mutual

def prettyAt (level : Nat) : Json → String
  | null => "null"
  | bool true => "true"
  | bool false => "false"
  | number text => text
  | string s => quote s
  | array [] => "[]"
  | array (e :: es) => "[" ++ prettyElements (level + 1) (e :: es) ++ newLine level ++ "]"
  | object [] => "\x7b\x7d"
  | object (m :: ms) => "\x7b" ++ prettyMembers (level + 1) (m :: ms) ++ newLine level ++ "\x7d"

def prettyElements (level : Nat) : List Json → String
  | [] => ""
  | [e] => newLine level ++ prettyAt level e
  | e :: es => newLine level ++ prettyAt level e ++ "," ++ prettyElements level es

def prettyMembers (level : Nat) : List (String × Json) → String
  | [] => ""
  | [(name, value)] => newLine level ++ quote name ++ ": " ++ prettyAt level value
  | (name, value) :: ms =>
    newLine level ++ quote name ++ ": " ++ prettyAt level value ++ "," ++ prettyMembers level ms

end

def pretty (j : Json) : String :=
  prettyAt 0 j

end Json

end WitnessReplay

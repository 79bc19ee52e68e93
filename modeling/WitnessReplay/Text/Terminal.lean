/-!
# Terminal control sequences

A text for a terminal may hold control sequences, which begin with the escape character. Where
there is no terminal they are left out, together with all other control characters except white
space. A sequence that never ends hides what follows it, up to the next escape character.
-/

namespace WitnessReplay.Text

/-- Which part of a control sequence is being read. -/
inductive ControlState where
  /-- No sequence. -/
  | plain
  /-- Behind the escape character. -/
  | escape
  /-- Behind the escape character and further characters that a last one has to follow. -/
  | escapeMiddle
  /-- A control sequence proper, behind `[`. -/
  | control
  /-- A command to the operating system, behind `]`. -/
  | command
  /-- A string without a meaning. -/
  | ignored
  /-- A device control string, behind `P`. -/
  | device
  /-- A device control string with parameters. -/
  | deviceParameter
  /-- A device control string with intermediate characters. -/
  | deviceMiddle
  /-- The data of a device control string. -/
  | deviceData
deriving DecidableEq, Repr

namespace ControlState

def escapeChar : Char := '\x1b'

def isLayout (c : Char) : Bool :=
  [' ', '\t', '\n', '\x0c', '\r'].contains c

/-- Whether a character belongs to the text that is shown. Inside some sequences white space is
shown. -/
def shows (s : ControlState) (c : Char) : Bool :=
  match s with
  | plain => isLayout c || (' ' < c && c != '\x7f')
  | escape | escapeMiddle | control => isLayout c && c != ' '
  | command | ignored | device | deviceParameter | deviceMiddle | deviceData => false

def endsString (c : Char) : Bool :=
  (String.utf8EncodeChar c).contains 0x9c

def afterEscape (c : Char) : ControlState :=
  if c < ' ' || '~' < c then escape
  else if c ≤ '/' then escapeMiddle
  else if c = '[' then control
  else if c = ']' then command
  else if c = 'P' then device
  else if ['X', '^', '_'].contains c then ignored
  else plain

/-- The state of a device control string behind a character that does not start its data. -/
def inDevice (s : ControlState) (c : Char) : ControlState :=
  if c < ' ' || '~' < c then s
  else if '@' ≤ c then deviceData
  else if c ≤ '/' then deviceMiddle
  else if s = deviceMiddle || (s = deviceParameter && '<' ≤ c) then deviceData
  else deviceParameter

def next (s : ControlState) (c : Char) : ControlState :=
  if c = escapeChar then escape
  else if c = '\x18' || c = '\x1a' then plain
  else
    match s with
    | plain => plain
    | escape => afterEscape c
    | escapeMiddle => if '0' ≤ c && c ≤ '~' then plain else escapeMiddle
    | control => if '@' ≤ c && c ≤ '~' then plain else control
    | command => if c = '\x07' then plain else command
    | ignored => if endsString c then plain else ignored
    | device | deviceParameter | deviceMiddle => s.inDevice c
    | deviceData => if endsString c then plain else deviceData

end ControlState

/-- The text that is shown of `cs` when it is read from a state on. Once a character is shown,
the following ones are treated like plain text until one is not shown; the sequence that was
being read goes on there. -/
def shownFrom (s : ControlState) (showing : Bool) : List Char → List Char
  | [] => []
  | c :: rest =>
    if (if showing then ControlState.plain else s).shows c then
      c :: shownFrom (if c.toNat < 128 then s else .plain) true rest
    else shownFrom (s.next c) false rest

def withoutControls (s : String) : String :=
  String.ofList (shownFrom .plain true s.toList)

end WitnessReplay.Text

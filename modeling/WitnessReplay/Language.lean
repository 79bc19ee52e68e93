import WitnessReplay.Text.Blank

/-!
# Source languages

The languages of the programs whose witnesses are replayed.
-/

namespace WitnessReplay

inductive Language where
  | java
  | kotlin
deriving DecidableEq, Repr

namespace Language

def name : Language → String
  | java => "java"
  | kotlin => "kotlin"

def extension : Language → String
  | java => "java"
  | kotlin => "kt"

/-- Whether a witness that gives `tag` as its source language means this one: white space
around the name and the case of ASCII letters do not count. -/
def matchesTag (l : Language) (tag : String) : Bool :=
  Text.asciiLower (Text.trim tag) == l.name

/-- A text that names no language, in its compared form. -/
structure Unsupported where
  text : String
deriving DecidableEq, Repr

def Unsupported.message (e : Unsupported) : String :=
  s!"unsupported source language '{e.text}' (expected one of: java, kotlin)"

def ofText (s : String) : Except Unsupported Language :=
  let text := Text.asciiLower (Text.trim s)
  if text = java.name then .ok java
  else if text = kotlin.name then .ok kotlin
  else .error ⟨text⟩

end Language

end WitnessReplay

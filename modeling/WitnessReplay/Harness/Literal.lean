import WitnessReplay.Language

/-!
# Values as source text

The values of a witness are written into the oracle as a list of string literals. A backslash
and a quote are escaped, in Kotlin also a dollar sign, which would start a template.
-/

namespace WitnessReplay.Harness

def escapeQuoted (s : List Char) : List Char :=
  s.flatMap fun c => if c = '\\' ∨ c = '"' then ['\\', c] else [c]

def escapeDollars (s : List Char) : List Char :=
  s.flatMap fun c => if c = '$' then ['\\', c] else [c]

def stringLiteral : Language → List Char → List Char
  | .java, s => '"' :: escapeQuoted s ++ ['"']
  | .kotlin, s => '"' :: escapeDollars (escapeQuoted s) ++ ['"']

def valueLiteral (language : Language) : Option String → List Char
  | some s => stringLiteral language s.toList
  | none => "null".toList

def listStart : Language → String
  | .java => "  static String[] assumptionList = \x7b"
  | .kotlin => "    var assumptionList = arrayOf<String?>("

def listEnd : Language → String
  | .java => "\x7d;"
  | .kotlin => ")"

def listLine (language : Language) (values : List (Option String)) : String :=
  String.ofList ((listStart language).toList ++
    List.intercalate ", ".toList (values.map (valueLiteral language)) ++
    (listEnd language).toList)

end WitnessReplay.Harness

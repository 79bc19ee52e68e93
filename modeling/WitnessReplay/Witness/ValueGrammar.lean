import WitnessReplay.Language
import WitnessReplay.Text.Pattern.Table

/-!
# Value grammars

Producers describe an input value as a statement: `x = 5;`, `s.equals("abc")`, `d =
Double.NaN;`. A grammar lists patterns in order; the first one that matches anywhere in the
statement decides, and the group it remembers is the value.
-/

namespace WitnessReplay.Witness

open Text

inductive ValueGrammar where
  | javaDefault
  | javaGDart
  | kotlinDefault
deriving DecidableEq, Repr

namespace ValueGrammar

def name : ValueGrammar → String
  | javaDefault => "java-default"
  | javaGDart => "java-gdart"
  | kotlinDefault => "kotlin-default"

def plainNumber : Pattern :=
  .optional (.is '-') ++ .many .digit ++ .optional (.is '.') ++ .oneOrMore .digit

def longNumber : Pattern :=
  plainNumber ++ .optional (.is 'L')

def truth : Pattern :=
  .exactly "false" <|> .exactly "true"

def truthOrNull : Pattern :=
  .exactly "false" <|> (.exactly "true" <|> .exactly "null")

/-- A call of the named method with one string argument, whose text is the value. -/
def stringCall (method : String) : Pattern :=
  .oneOrMore .wordChar ++ .exactly s!".{method}(\"" ++ .group (.many .notLineFeed) ++ .exactly "\")"

/-- The patterns of the default grammar for Java, after a given start: anything without white
space, a string that is compared with, a number, a truth value or null. -/
def javaDefaultAfter (start : Pattern) : Pattern :=
  (start ++ .group (.oneOrMore .nonSpace)) <|>
    (stringCall "equals" <|> (.group longNumber <|> .group truthOrNull))

def javaGDartAfter (start : Pattern) : Pattern :=
  (start ++ .group (plainNumber <|> truth)) <|>
    (stringCall "equals" <|> (stringCall "parseDouble" <|> stringCall "parseFloat"))

/-- The value of the default grammar for Kotlin. What it is read as is remembered behind the
value itself. -/
def kotlinValue : Pattern :=
  .group (.group longNumber <|> (.group (.oneOrMore .nonSpace) <|> .group truthOrNull))

/-- The patterns of a grammar in the order in which they are tried: with an equals sign in
front, then without. -/
def candidates : ValueGrammar → List Pattern
  | javaDefault =>
    [javaDefaultAfter (.exactly "=" ++ .optional .space), javaDefaultAfter (.optional .space)]
  | javaGDart =>
    [javaGDartAfter (.exactly "=" ++ .optional .space), javaGDartAfter (.optional .space)]
  | kotlinDefault => [.exactly "= " ++ kotlinValue, kotlinValue]

/-- Whether the word `null` stands for the absent value; otherwise it is kept as a text. -/
def readsNull : ValueGrammar → Bool
  | javaDefault => true
  | javaGDart => false
  | kotlinDefault => true

def select (language : Language) (producer : Option String) : ValueGrammar :=
  match language with
  | .java => if producer.any fun p => asciiLower (trim p) == "gdart" then javaGDart else javaDefault
  | .kotlin => kotlinDefault

def specialValues : List (String × String) :=
  [("Double.NaN", "NaN"), ("Float.NaN", "NaN"),
   ("Double.POSITIVE_INFINITY", "Infinity"), ("Float.POSITIVE_INFINITY", "Infinity"),
   ("Double.NEGATIVE_INFINITY", "-Infinity"), ("Float.NEGATIVE_INFINITY", "-Infinity")]

def rawValue? (g : ValueGrammar) (statement : List Char) : Option (List Char) :=
  g.candidates.findSome? fun p => (p.find? statement).bind fun m => m.groups.getLast?.map (·.text)

def dropSemicolon (value : List Char) : List Char :=
  if value.getLast? = some ';' then value.dropLast else value

def canonical (value : String) : String :=
  (specialValues.lookup value).getD value

/-- The text of the value that a statement gives, if any. -/
def extract? (g : ValueGrammar) (statement : String) : Option String :=
  (g.rawValue? statement.toList).map fun value => canonical (String.ofList (dropSemicolon value))

/-- The value that a statement gives to the harness, if any; `some none` is the absent value. -/
def value? (g : ValueGrammar) (statement : String) : Option (Option String) :=
  (g.extract? statement).map fun value => if value = "null" ∧ g.readsNull then none else some value

end ValueGrammar

end WitnessReplay.Witness

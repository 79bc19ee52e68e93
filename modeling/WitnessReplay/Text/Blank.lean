/-!
# White space

The Unicode property `White_Space`, and trimming by it.
-/

namespace WitnessReplay.Text

def isWhiteSpace (c : Char) : Bool :=
  let n := c.toNat
  (9 ≤ n && n ≤ 13) || n == 0x20 || n == 0x85 || n == 0xa0 || n == 0x1680 ||
    (0x2000 ≤ n && n ≤ 0x200a) ||
    n == 0x2028 || n == 0x2029 || n == 0x202f || n == 0x205f || n == 0x3000

def dropEndWhile (p : Char → Bool) (cs : List Char) : List Char :=
  (cs.reverse.dropWhile p).reverse

def trimChars (cs : List Char) : List Char :=
  dropEndWhile isWhiteSpace (cs.dropWhile isWhiteSpace)

def trim (s : String) : String :=
  String.ofList (trimChars s.toList)

def asciiLower (s : String) : String :=
  String.ofList (s.toList.map Char.toLower)

end WitnessReplay.Text

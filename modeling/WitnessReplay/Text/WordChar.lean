import WitnessReplay.Text.Identifier

/-!
# Word characters and digits

The classes that text patterns use: a digit is any decimal digit of Unicode (`Nd`), and a word
character is a letter, a mark, a decimal digit, a connector or a joiner, all as of Unicode 16.
Word characters differ from `XID_Continue` in a few places only, which the two short tables
list.
-/

namespace WitnessReplay.Text

def digitRanges : List (Nat × Nat) :=
  [(0x660, 10), (0x6f0, 10), (0x7c0, 10), (0x966, 10), (0x9e6, 10), (0xa66, 10), (0xae6, 10),
   (0xb66, 10), (0xbe6, 10), (0xc66, 10), (0xce6, 10), (0xd66, 10), (0xde6, 10), (0xe50, 10),
   (0xed0, 10), (0xf20, 10), (0x1040, 10), (0x1090, 10), (0x17e0, 10), (0x1810, 10), (0x1946, 10),
   (0x19d0, 10), (0x1a80, 10), (0x1a90, 10), (0x1b50, 10), (0x1bb0, 10), (0x1c40, 10),
   (0x1c50, 10), (0xa620, 10), (0xa8d0, 10), (0xa900, 10), (0xa9d0, 10), (0xa9f0, 10),
   (0xaa50, 10), (0xabf0, 10), (0xff10, 10), (0x104a0, 10), (0x10d30, 10), (0x10d40, 10),
   (0x11066, 10), (0x110f0, 10), (0x11136, 10), (0x111d0, 10), (0x112f0, 10), (0x11450, 10),
   (0x114d0, 10), (0x11650, 10), (0x116c0, 10), (0x116d0, 20), (0x11730, 10), (0x118e0, 10),
   (0x11950, 10), (0x11bf0, 10), (0x11c50, 10), (0x11d50, 10), (0x11da0, 10), (0x11f50, 10),
   (0x16130, 10), (0x16a60, 10), (0x16ac0, 10), (0x16b50, 10), (0x16d70, 10), (0x1ccf0, 10),
   (0x1d7ce, 50), (0x1e140, 10), (0x1e2f0, 10), (0x1e4f0, 10), (0x1e5f1, 10), (0x1e950, 10),
   (0x1fbf0, 10)]

def isDigit (c : Char) : Bool :=
  if c.toNat < 128 then Char.isDigit c else inRanges digitRanges c

/-- Word characters that do not go on with an identifier: enclosing marks, circled letters,
presentation forms. -/
def wordOnlyRanges : List (Nat × Nat) :=
  [(0x37a, 1), (0x488, 2), (0x1abe, 1), (0x20dd, 4), (0x20e2, 3), (0x24b6, 52), (0x2e2f, 1),
   (0xa670, 3), (0xfc5e, 6), (0xfdfa, 2), (0xfe70, 1), (0xfe72, 1), (0xfe74, 1), (0xfe76, 1),
   (0xfe78, 1), (0xfe7a, 1), (0xfe7c, 1), (0xfe7e, 1), (0x1f130, 26), (0x1f150, 26),
   (0x1f170, 26)]

def nonWordRanges : List (Nat × Nat) :=
  [(0xb7, 1), (0x387, 1), (0x1369, 9), (0x19da, 1), (0x2118, 1), (0x212e, 1), (0x30fb, 1),
   (0xff65, 1)]

def isWordChar (c : Char) : Bool :=
  (isPlainContinue c && !inRanges nonWordRanges c) || inRanges wordOnlyRanges c

end WitnessReplay.Text

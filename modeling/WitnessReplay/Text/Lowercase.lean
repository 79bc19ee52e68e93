import WitnessReplay.Text.CodePoint

/-!
# Lowercase

The lowercase form of a text by the full case mapping of Unicode 17. Every character is mapped
on its own, with two exceptions: the capital I with a dot becomes two characters, and the
capital sigma becomes the final sigma at the end of a word.
-/

namespace WitnessReplay.Text

def casedRanges : List (Nat × Nat) :=
  [(0x41, 26), (0x61, 26), (0xaa, 1), (0xb5, 1), (0xba, 1), (0xc0, 23), (0xd8, 31), (0xf8, 195),
   (0x1bc, 4), (0x1c4, 208), (0x296, 26), (0x370, 4), (0x376, 2), (0x37b, 3), (0x37f, 1),
   (0x386, 1), (0x388, 3), (0x38c, 1), (0x38e, 20), (0x3a3, 83), (0x3f7, 139), (0x48a, 166),
   (0x531, 38), (0x560, 41), (0x10a0, 38), (0x10c7, 1), (0x10cd, 1), (0x10d0, 43), (0x10fd, 3),
   (0x13a0, 86), (0x13f8, 6), (0x1c80, 11), (0x1c90, 43), (0x1cbd, 3), (0x1d00, 44), (0x1d6b, 13),
   (0x1d79, 34), (0x1e00, 278), (0x1f18, 6), (0x1f20, 38), (0x1f48, 6), (0x1f50, 8), (0x1f59, 1),
   (0x1f5b, 1), (0x1f5d, 1), (0x1f5f, 31), (0x1f80, 53), (0x1fb6, 7), (0x1fbe, 1), (0x1fc2, 3),
   (0x1fc6, 7), (0x1fd0, 4), (0x1fd6, 6), (0x1fe0, 13), (0x1ff2, 3), (0x1ff6, 7), (0x2102, 1),
   (0x2107, 1), (0x210a, 10), (0x2115, 1), (0x2119, 5), (0x2124, 1), (0x2126, 1), (0x2128, 1),
   (0x212a, 4), (0x212f, 6), (0x2139, 1), (0x213c, 4), (0x2145, 5), (0x214e, 1), (0x2160, 32),
   (0x2183, 2), (0x24b6, 52), (0x2c00, 124), (0x2c7e, 103), (0x2ceb, 4), (0x2cf2, 2),
   (0x2d00, 38), (0x2d27, 1), (0x2d2d, 1), (0xa640, 46), (0xa680, 28), (0xa722, 78), (0xa771, 23),
   (0xa78b, 4), (0xa790, 77), (0xa7f5, 2), (0xa7fa, 1), (0xab30, 43), (0xab60, 9), (0xab70, 80),
   (0xfb00, 7), (0xfb13, 5), (0xff21, 26), (0xff41, 26), (0x10400, 80), (0x104b0, 36),
   (0x104d8, 36), (0x10570, 11), (0x1057c, 15), (0x1058c, 7), (0x10594, 2), (0x10597, 11),
   (0x105a3, 15), (0x105b3, 7), (0x105bb, 2), (0x10c80, 51), (0x10cc0, 51), (0x10d50, 22),
   (0x10d70, 22), (0x118a0, 64), (0x16e40, 64), (0x16ea0, 25), (0x16ebb, 25), (0x1d400, 85),
   (0x1d456, 71), (0x1d49e, 2), (0x1d4a2, 1), (0x1d4a5, 2), (0x1d4a9, 4), (0x1d4ae, 12),
   (0x1d4bb, 1), (0x1d4bd, 7), (0x1d4c5, 65), (0x1d507, 4), (0x1d50d, 8), (0x1d516, 7),
   (0x1d51e, 28), (0x1d53b, 4), (0x1d540, 5), (0x1d546, 1), (0x1d54a, 7), (0x1d552, 340),
   (0x1d6a8, 25), (0x1d6c2, 25), (0x1d6dc, 31), (0x1d6fc, 25), (0x1d716, 31), (0x1d736, 25),
   (0x1d750, 31), (0x1d770, 25), (0x1d78a, 31), (0x1d7aa, 25), (0x1d7c4, 8), (0x1df00, 10),
   (0x1df0b, 20), (0x1df25, 6), (0x1e900, 68), (0x1f130, 26), (0x1f150, 26), (0x1f170, 26)]

/-- Characters that are passed over when a word's neighbouring letters are looked for. -/
def caseIgnorableRanges : List (Nat × Nat) :=
  [(0x27, 1), (0x2e, 1), (0x3a, 1), (0x5e, 1), (0x60, 1), (0xa8, 1), (0xad, 1), (0xaf, 1),
   (0xb4, 1), (0xb7, 2), (0x2b0, 192), (0x374, 2), (0x37a, 1), (0x384, 2), (0x387, 1), (0x483, 7),
   (0x559, 1), (0x55f, 1), (0x591, 45), (0x5bf, 1), (0x5c1, 2), (0x5c4, 2), (0x5c7, 1),
   (0x5f4, 1), (0x600, 6), (0x610, 11), (0x61c, 1), (0x640, 1), (0x64b, 21), (0x670, 1),
   (0x6d6, 8), (0x6df, 10), (0x6ea, 4), (0x70f, 1), (0x711, 1), (0x730, 27), (0x7a6, 11),
   (0x7eb, 11), (0x7fa, 1), (0x7fd, 1), (0x816, 24), (0x859, 3), (0x888, 1), (0x890, 2),
   (0x897, 9), (0x8c9, 58), (0x93a, 1), (0x93c, 1), (0x941, 8), (0x94d, 1), (0x951, 7),
   (0x962, 2), (0x971, 1), (0x981, 1), (0x9bc, 1), (0x9c1, 4), (0x9cd, 1), (0x9e2, 2), (0x9fe, 1),
   (0xa01, 2), (0xa3c, 1), (0xa41, 2), (0xa47, 2), (0xa4b, 3), (0xa51, 1), (0xa70, 2), (0xa75, 1),
   (0xa81, 2), (0xabc, 1), (0xac1, 5), (0xac7, 2), (0xacd, 1), (0xae2, 2), (0xafa, 6), (0xb01, 1),
   (0xb3c, 1), (0xb3f, 1), (0xb41, 4), (0xb4d, 1), (0xb55, 2), (0xb62, 2), (0xb82, 1), (0xbc0, 1),
   (0xbcd, 1), (0xc00, 1), (0xc04, 1), (0xc3c, 1), (0xc3e, 3), (0xc46, 3), (0xc4a, 4), (0xc55, 2),
   (0xc62, 2), (0xc81, 1), (0xcbc, 1), (0xcbf, 1), (0xcc6, 1), (0xccc, 2), (0xce2, 2), (0xd00, 2),
   (0xd3b, 2), (0xd41, 4), (0xd4d, 1), (0xd62, 2), (0xd81, 1), (0xdca, 1), (0xdd2, 3), (0xdd6, 1),
   (0xe31, 1), (0xe34, 7), (0xe46, 9), (0xeb1, 1), (0xeb4, 9), (0xec6, 1), (0xec8, 7), (0xf18, 2),
   (0xf35, 1), (0xf37, 1), (0xf39, 1), (0xf71, 14), (0xf80, 5), (0xf86, 2), (0xf8d, 11),
   (0xf99, 36), (0xfc6, 1), (0x102d, 4), (0x1032, 6), (0x1039, 2), (0x103d, 2), (0x1058, 2),
   (0x105e, 3), (0x1071, 4), (0x1082, 1), (0x1085, 2), (0x108d, 1), (0x109d, 1), (0x10fc, 1),
   (0x135d, 3), (0x1712, 3), (0x1732, 2), (0x1752, 2), (0x1772, 2), (0x17b4, 2), (0x17b7, 7),
   (0x17c6, 1), (0x17c9, 11), (0x17d7, 1), (0x17dd, 1), (0x180b, 5), (0x1843, 1), (0x1885, 2),
   (0x18a9, 1), (0x1920, 3), (0x1927, 2), (0x1932, 1), (0x1939, 3), (0x1a17, 2), (0x1a1b, 1),
   (0x1a56, 1), (0x1a58, 7), (0x1a60, 1), (0x1a62, 1), (0x1a65, 8), (0x1a73, 10), (0x1a7f, 1),
   (0x1aa7, 1), (0x1ab0, 46), (0x1ae0, 12), (0x1b00, 4), (0x1b34, 1), (0x1b36, 5), (0x1b3c, 1),
   (0x1b42, 1), (0x1b6b, 9), (0x1b80, 2), (0x1ba2, 4), (0x1ba8, 2), (0x1bab, 3), (0x1be6, 1),
   (0x1be8, 2), (0x1bed, 1), (0x1bef, 3), (0x1c2c, 8), (0x1c36, 2), (0x1c78, 6), (0x1cd0, 3),
   (0x1cd4, 13), (0x1ce2, 7), (0x1ced, 1), (0x1cf4, 1), (0x1cf8, 2), (0x1d2c, 63), (0x1d78, 1),
   (0x1d9b, 101), (0x1fbd, 1), (0x1fbf, 3), (0x1fcd, 3), (0x1fdd, 3), (0x1fed, 3), (0x1ffd, 2),
   (0x200b, 5), (0x2018, 2), (0x2024, 1), (0x2027, 1), (0x202a, 5), (0x2060, 5), (0x2066, 10),
   (0x2071, 1), (0x207f, 1), (0x2090, 13), (0x20d0, 33), (0x2c7c, 2), (0x2cef, 3), (0x2d6f, 1),
   (0x2d7f, 1), (0x2de0, 32), (0x2e2f, 1), (0x3005, 1), (0x302a, 4), (0x3031, 5), (0x303b, 1),
   (0x3099, 6), (0x30fc, 3), (0xa015, 1), (0xa4f8, 6), (0xa60c, 1), (0xa66f, 4), (0xa674, 10),
   (0xa67f, 1), (0xa69c, 4), (0xa6f0, 2), (0xa700, 34), (0xa770, 1), (0xa788, 3), (0xa7f1, 4),
   (0xa7f8, 2), (0xa802, 1), (0xa806, 1), (0xa80b, 1), (0xa825, 2), (0xa82c, 1), (0xa8c4, 2),
   (0xa8e0, 18), (0xa8ff, 1), (0xa926, 8), (0xa947, 11), (0xa980, 3), (0xa9b3, 1), (0xa9b6, 4),
   (0xa9bc, 2), (0xa9cf, 1), (0xa9e5, 2), (0xaa29, 6), (0xaa31, 2), (0xaa35, 2), (0xaa43, 1),
   (0xaa4c, 1), (0xaa70, 1), (0xaa7c, 1), (0xaab0, 1), (0xaab2, 3), (0xaab7, 2), (0xaabe, 2),
   (0xaac1, 1), (0xaadd, 1), (0xaaec, 2), (0xaaf3, 2), (0xaaf6, 1), (0xab5b, 5), (0xab69, 3),
   (0xabe5, 1), (0xabe8, 1), (0xabed, 1), (0xfb1e, 1), (0xfbb2, 17), (0xfe00, 16), (0xfe13, 1),
   (0xfe20, 16), (0xfe52, 1), (0xfe55, 1), (0xfeff, 1), (0xff07, 1), (0xff0e, 1), (0xff1a, 1),
   (0xff3e, 1), (0xff40, 1), (0xff70, 1), (0xff9e, 2), (0xffe3, 1), (0xfff9, 3), (0x101fd, 1),
   (0x102e0, 1), (0x10376, 5), (0x10780, 6), (0x10787, 42), (0x107b2, 9), (0x10a01, 3),
   (0x10a05, 2), (0x10a0c, 4), (0x10a38, 3), (0x10a3f, 1), (0x10ae5, 2), (0x10d24, 4),
   (0x10d4e, 1), (0x10d69, 5), (0x10d6f, 1), (0x10eab, 2), (0x10ec5, 1), (0x10efa, 6),
   (0x10f46, 11), (0x10f82, 4), (0x11001, 1), (0x11038, 15), (0x11070, 1), (0x11073, 2),
   (0x1107f, 3), (0x110b3, 4), (0x110b9, 2), (0x110bd, 1), (0x110c2, 1), (0x110cd, 1),
   (0x11100, 3), (0x11127, 5), (0x1112d, 8), (0x11173, 1), (0x11180, 2), (0x111b6, 9),
   (0x111c9, 4), (0x111cf, 1), (0x1122f, 3), (0x11234, 1), (0x11236, 2), (0x1123e, 1),
   (0x11241, 1), (0x112df, 1), (0x112e3, 8), (0x11300, 2), (0x1133b, 2), (0x11340, 1),
   (0x11366, 7), (0x11370, 5), (0x113bb, 6), (0x113ce, 1), (0x113d0, 1), (0x113d2, 1),
   (0x113e1, 2), (0x11438, 8), (0x11442, 3), (0x11446, 1), (0x1145e, 1), (0x114b3, 6),
   (0x114ba, 1), (0x114bf, 2), (0x114c2, 2), (0x115b2, 4), (0x115bc, 2), (0x115bf, 2),
   (0x115dc, 2), (0x11633, 8), (0x1163d, 1), (0x1163f, 2), (0x116ab, 1), (0x116ad, 1),
   (0x116b0, 6), (0x116b7, 1), (0x1171d, 1), (0x1171f, 1), (0x11722, 4), (0x11727, 5),
   (0x1182f, 9), (0x11839, 2), (0x1193b, 2), (0x1193e, 1), (0x11943, 1), (0x119d4, 4),
   (0x119da, 2), (0x119e0, 1), (0x11a01, 10), (0x11a33, 6), (0x11a3b, 4), (0x11a47, 1),
   (0x11a51, 6), (0x11a59, 3), (0x11a8a, 13), (0x11a98, 2), (0x11b60, 1), (0x11b62, 3),
   (0x11b66, 1), (0x11c30, 7), (0x11c38, 6), (0x11c3f, 1), (0x11c92, 22), (0x11caa, 7),
   (0x11cb2, 2), (0x11cb5, 2), (0x11d31, 6), (0x11d3a, 1), (0x11d3c, 2), (0x11d3f, 7),
   (0x11d47, 1), (0x11d90, 2), (0x11d95, 1), (0x11d97, 1), (0x11dd9, 1), (0x11ef3, 2),
   (0x11f00, 2), (0x11f36, 5), (0x11f40, 1), (0x11f42, 1), (0x11f5a, 1), (0x13430, 17),
   (0x13447, 15), (0x1611e, 12), (0x1612d, 3), (0x16af0, 5), (0x16b30, 7), (0x16b40, 4),
   (0x16d40, 3), (0x16d6b, 2), (0x16f4f, 1), (0x16f8f, 17), (0x16fe0, 2), (0x16fe3, 2),
   (0x16ff2, 2), (0x1aff0, 4), (0x1aff5, 7), (0x1affd, 2), (0x1bc9d, 2), (0x1bca0, 4),
   (0x1cf00, 46), (0x1cf30, 23), (0x1d167, 3), (0x1d173, 16), (0x1d185, 7), (0x1d1aa, 4),
   (0x1d242, 3), (0x1da00, 55), (0x1da3b, 50), (0x1da75, 1), (0x1da84, 1), (0x1da9b, 5),
   (0x1daa1, 15), (0x1e000, 7), (0x1e008, 17), (0x1e01b, 7), (0x1e023, 2), (0x1e026, 5),
   (0x1e030, 62), (0x1e08f, 1), (0x1e130, 14), (0x1e2ae, 1), (0x1e2ec, 4), (0x1e4eb, 5),
   (0x1e5ee, 2), (0x1e6e3, 1), (0x1e6e6, 1), (0x1e6ee, 2), (0x1e6f5, 1), (0x1e6ff, 1),
   (0x1e8d0, 7), (0x1e944, 8), (0x1f3fb, 5), (0xe0001, 1), (0xe0020, 96), (0xe0100, 240)]

/-- The simple lowercase mapping beyond ASCII: each entry gives the first and the last code
point of a run, the step inside it, and what is added to a code point of it. -/
def lowercaseRuns : List (Nat × Nat × Nat × Int) :=
  [(0xc0, 0xd6, 1, 32), (0xd8, 0xde, 1, 32), (0x100, 0x12e, 2, 1), (0x132, 0x136, 2, 1),
   (0x139, 0x147, 2, 1), (0x14a, 0x176, 2, 1), (0x178, 0x178, 1, -121), (0x179, 0x17d, 2, 1),
   (0x181, 0x181, 1, 210), (0x182, 0x184, 2, 1), (0x186, 0x186, 1, 206), (0x187, 0x187, 1, 1),
   (0x189, 0x18a, 1, 205), (0x18b, 0x18b, 1, 1), (0x18e, 0x18e, 1, 79), (0x18f, 0x18f, 1, 202),
   (0x190, 0x190, 1, 203), (0x191, 0x191, 1, 1), (0x193, 0x193, 1, 205), (0x194, 0x194, 1, 207),
   (0x196, 0x196, 1, 211), (0x197, 0x197, 1, 209), (0x198, 0x198, 1, 1), (0x19c, 0x19c, 1, 211),
   (0x19d, 0x19d, 1, 213), (0x19f, 0x19f, 1, 214), (0x1a0, 0x1a4, 2, 1), (0x1a6, 0x1a6, 1, 218),
   (0x1a7, 0x1a7, 1, 1), (0x1a9, 0x1a9, 1, 218), (0x1ac, 0x1ac, 1, 1), (0x1ae, 0x1ae, 1, 218),
   (0x1af, 0x1af, 1, 1), (0x1b1, 0x1b2, 1, 217), (0x1b3, 0x1b5, 2, 1), (0x1b7, 0x1b7, 1, 219),
   (0x1b8, 0x1b8, 1, 1), (0x1bc, 0x1bc, 1, 1), (0x1c4, 0x1c4, 1, 2), (0x1c5, 0x1c5, 1, 1),
   (0x1c7, 0x1c7, 1, 2), (0x1c8, 0x1c8, 1, 1), (0x1ca, 0x1ca, 1, 2), (0x1cb, 0x1db, 2, 1),
   (0x1de, 0x1ee, 2, 1), (0x1f1, 0x1f1, 1, 2), (0x1f2, 0x1f4, 2, 1), (0x1f6, 0x1f6, 1, -97),
   (0x1f7, 0x1f7, 1, -56), (0x1f8, 0x21e, 2, 1), (0x220, 0x220, 1, -130), (0x222, 0x232, 2, 1),
   (0x23a, 0x23a, 1, 10795), (0x23b, 0x23b, 1, 1), (0x23d, 0x23d, 1, -163),
   (0x23e, 0x23e, 1, 10792), (0x241, 0x241, 1, 1), (0x243, 0x243, 1, -195), (0x244, 0x244, 1, 69),
   (0x245, 0x245, 1, 71), (0x246, 0x24e, 2, 1), (0x370, 0x372, 2, 1), (0x376, 0x376, 1, 1),
   (0x37f, 0x37f, 1, 116), (0x386, 0x386, 1, 38), (0x388, 0x38a, 1, 37), (0x38c, 0x38c, 1, 64),
   (0x38e, 0x38f, 1, 63), (0x391, 0x3a1, 1, 32), (0x3a3, 0x3ab, 1, 32), (0x3cf, 0x3cf, 1, 8),
   (0x3d8, 0x3ee, 2, 1), (0x3f4, 0x3f4, 1, -60), (0x3f7, 0x3f7, 1, 1), (0x3f9, 0x3f9, 1, -7),
   (0x3fa, 0x3fa, 1, 1), (0x3fd, 0x3ff, 1, -130), (0x400, 0x40f, 1, 80), (0x410, 0x42f, 1, 32),
   (0x460, 0x480, 2, 1), (0x48a, 0x4be, 2, 1), (0x4c0, 0x4c0, 1, 15), (0x4c1, 0x4cd, 2, 1),
   (0x4d0, 0x52e, 2, 1), (0x531, 0x556, 1, 48), (0x10a0, 0x10c5, 1, 7264),
   (0x10c7, 0x10c7, 1, 7264), (0x10cd, 0x10cd, 1, 7264), (0x13a0, 0x13ef, 1, 38864),
   (0x13f0, 0x13f5, 1, 8), (0x1c89, 0x1c89, 1, 1), (0x1c90, 0x1cba, 1, -3008),
   (0x1cbd, 0x1cbf, 1, -3008), (0x1e00, 0x1e94, 2, 1), (0x1e9e, 0x1e9e, 1, -7615),
   (0x1ea0, 0x1efe, 2, 1), (0x1f08, 0x1f0f, 1, -8), (0x1f18, 0x1f1d, 1, -8),
   (0x1f28, 0x1f2f, 1, -8), (0x1f38, 0x1f3f, 1, -8), (0x1f48, 0x1f4d, 1, -8),
   (0x1f59, 0x1f5f, 2, -8), (0x1f68, 0x1f6f, 1, -8), (0x1f88, 0x1f8f, 1, -8),
   (0x1f98, 0x1f9f, 1, -8), (0x1fa8, 0x1faf, 1, -8), (0x1fb8, 0x1fb9, 1, -8),
   (0x1fba, 0x1fbb, 1, -74), (0x1fbc, 0x1fbc, 1, -9), (0x1fc8, 0x1fcb, 1, -86),
   (0x1fcc, 0x1fcc, 1, -9), (0x1fd8, 0x1fd9, 1, -8), (0x1fda, 0x1fdb, 1, -100),
   (0x1fe8, 0x1fe9, 1, -8), (0x1fea, 0x1feb, 1, -112), (0x1fec, 0x1fec, 1, -7),
   (0x1ff8, 0x1ff9, 1, -128), (0x1ffa, 0x1ffb, 1, -126), (0x1ffc, 0x1ffc, 1, -9),
   (0x2126, 0x2126, 1, -7517), (0x212a, 0x212a, 1, -8383), (0x212b, 0x212b, 1, -8262),
   (0x2132, 0x2132, 1, 28), (0x2160, 0x216f, 1, 16), (0x2183, 0x2183, 1, 1),
   (0x24b6, 0x24cf, 1, 26), (0x2c00, 0x2c2f, 1, 48), (0x2c60, 0x2c60, 1, 1),
   (0x2c62, 0x2c62, 1, -10743), (0x2c63, 0x2c63, 1, -3814), (0x2c64, 0x2c64, 1, -10727),
   (0x2c67, 0x2c6b, 2, 1), (0x2c6d, 0x2c6d, 1, -10780), (0x2c6e, 0x2c6e, 1, -10749),
   (0x2c6f, 0x2c6f, 1, -10783), (0x2c70, 0x2c70, 1, -10782), (0x2c72, 0x2c72, 1, 1),
   (0x2c75, 0x2c75, 1, 1), (0x2c7e, 0x2c7f, 1, -10815), (0x2c80, 0x2ce2, 2, 1),
   (0x2ceb, 0x2ced, 2, 1), (0x2cf2, 0x2cf2, 1, 1), (0xa640, 0xa66c, 2, 1), (0xa680, 0xa69a, 2, 1),
   (0xa722, 0xa72e, 2, 1), (0xa732, 0xa76e, 2, 1), (0xa779, 0xa77b, 2, 1),
   (0xa77d, 0xa77d, 1, -35332), (0xa77e, 0xa786, 2, 1), (0xa78b, 0xa78b, 1, 1),
   (0xa78d, 0xa78d, 1, -42280), (0xa790, 0xa792, 2, 1), (0xa796, 0xa7a8, 2, 1),
   (0xa7aa, 0xa7aa, 1, -42308), (0xa7ab, 0xa7ab, 1, -42319), (0xa7ac, 0xa7ac, 1, -42315),
   (0xa7ad, 0xa7ad, 1, -42305), (0xa7ae, 0xa7ae, 1, -42308), (0xa7b0, 0xa7b0, 1, -42258),
   (0xa7b1, 0xa7b1, 1, -42282), (0xa7b2, 0xa7b2, 1, -42261), (0xa7b3, 0xa7b3, 1, 928),
   (0xa7b4, 0xa7c2, 2, 1), (0xa7c4, 0xa7c4, 1, -48), (0xa7c5, 0xa7c5, 1, -42307),
   (0xa7c6, 0xa7c6, 1, -35384), (0xa7c7, 0xa7c9, 2, 1), (0xa7cb, 0xa7cb, 1, -42343),
   (0xa7cc, 0xa7da, 2, 1), (0xa7dc, 0xa7dc, 1, -42561), (0xa7f5, 0xa7f5, 1, 1),
   (0xff21, 0xff3a, 1, 32), (0x10400, 0x10427, 1, 40), (0x104b0, 0x104d3, 1, 40),
   (0x10570, 0x10594, 2, 39), (0x10571, 0x10579, 2, 39), (0x1057d, 0x10589, 2, 39),
   (0x1058d, 0x10591, 2, 39), (0x10595, 0x10595, 1, 39), (0x10c80, 0x10cb2, 1, 64),
   (0x10d50, 0x10d65, 1, 32), (0x118a0, 0x118bf, 1, 32), (0x16e40, 0x16e5f, 1, 32),
   (0x16ea0, 0x16eb8, 1, 27), (0x1e900, 0x1e921, 1, 34)]

def lowercaseChar (c : Char) : Char :=
  if c.toNat < 128 then c.toLower
  else
    match lowercaseRuns.find? fun (first, last, step, _) =>
        first ≤ c.toNat && c.toNat ≤ last && (c.toNat - first) % step == 0 with
    | some (_, _, _, shift) => Char.ofNat (c.toNat + shift).toNat
    | none => c

/-- Whether a cased letter comes first in `cs` once ignorable characters are passed over. -/
def startsCased (cs : List Char) : Bool :=
  match cs.dropWhile (inRanges caseIgnorableRanges) with
  | [] => false
  | c :: _ => inRanges casedRanges c

/-- The lowercase form of `cs`, where `before` holds the characters in front of it, nearest
first. -/
def lowercaseAfter (before : List Char) : List Char → List Char
  | [] => []
  | c :: rest =>
    let lower :=
      if c = 'Σ' then
        if startsCased before && !startsCased rest then ['ς'] else ['σ']
      else if c = 'İ' then ['i', '\u0307']
      else [lowercaseChar c]
    lower ++ lowercaseAfter (c :: before) rest

def lowercase (s : String) : String :=
  String.ofList (lowercaseAfter [] s.toList)

end WitnessReplay.Text

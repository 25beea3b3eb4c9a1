set_option autoImplicit false

/-!
# The table of letter case

Capital and small letters of all scripts that have both, as stretches of consecutive
codes. Only forms that are one character are listed.

## Main definitions

* `CaseStretch` — consecutive codes whose other-case forms follow one rule.
* `caseStretches` — all stretches, in ascending order of their codes.
-/

namespace GrammarForge

/-- Consecutive codes whose other-case forms follow one rule. -/
inductive CaseStretch where
  /-- Capitals `first … last` whose small forms start at `small`. -/
  | capital (first last small : Nat)
  /-- Small letters `first … last` whose capitals start at `capital`. -/
  | small (first last capital : Nat)
  /-- Capitals at `first`, `first + 2`, …, each followed by its small form. -/
  | pairs (first last : Nat)
  /-- A title-case digraph with its capital before it and its small form after it. -/
  | title (code : Nat)
deriving DecidableEq, Repr

/-- Every stretch of cased codes, in ascending order. -/
def caseStretches : List CaseStretch :=
  [.capital 0x41 0x5a 0x61, .small 0x61 0x7a 0x41, .small 0xb5 0xb5 0x39c,
   .capital 0xc0 0xd6 0xe0, .capital 0xd8 0xde 0xf8, .small 0xe0 0xf6 0xc0, .small 0xf8 0xfe 0xd8,
   .small 0xff 0xff 0x178, .pairs 0x100 0x12f, .small 0x131 0x131 0x49, .pairs 0x132 0x137,
   .pairs 0x139 0x148, .pairs 0x14a 0x177, .capital 0x178 0x178 0xff, .pairs 0x179 0x17e,
   .small 0x17f 0x17f 0x53, .small 0x180 0x180 0x243, .capital 0x181 0x181 0x253,
   .pairs 0x182 0x185, .capital 0x186 0x186 0x254, .pairs 0x187 0x188, .capital 0x189 0x18a 0x256,
   .pairs 0x18b 0x18c, .capital 0x18e 0x18e 0x1dd, .capital 0x18f 0x18f 0x259,
   .capital 0x190 0x190 0x25b, .pairs 0x191 0x192, .capital 0x193 0x193 0x260,
   .capital 0x194 0x194 0x263, .small 0x195 0x195 0x1f6, .capital 0x196 0x196 0x269,
   .capital 0x197 0x197 0x268, .pairs 0x198 0x199, .small 0x19a 0x19a 0x23d,
   .small 0x19b 0x19b 0xa7dc, .capital 0x19c 0x19c 0x26f, .capital 0x19d 0x19d 0x272,
   .small 0x19e 0x19e 0x220, .capital 0x19f 0x19f 0x275, .pairs 0x1a0 0x1a5,
   .capital 0x1a6 0x1a6 0x280, .pairs 0x1a7 0x1a8, .capital 0x1a9 0x1a9 0x283, .pairs 0x1ac 0x1ad,
   .capital 0x1ae 0x1ae 0x288, .pairs 0x1af 0x1b0, .capital 0x1b1 0x1b2 0x28a, .pairs 0x1b3 0x1b6,
   .capital 0x1b7 0x1b7 0x292, .pairs 0x1b8 0x1b9, .pairs 0x1bc 0x1bd, .small 0x1bf 0x1bf 0x1f7,
   .capital 0x1c4 0x1c4 0x1c6, .title 0x1c5, .small 0x1c6 0x1c6 0x1c4, .capital 0x1c7 0x1c7 0x1c9,
   .title 0x1c8, .small 0x1c9 0x1c9 0x1c7, .capital 0x1ca 0x1ca 0x1cc, .title 0x1cb,
   .small 0x1cc 0x1cc 0x1ca, .pairs 0x1cd 0x1dc, .small 0x1dd 0x1dd 0x18e, .pairs 0x1de 0x1ef,
   .capital 0x1f1 0x1f1 0x1f3, .title 0x1f2, .small 0x1f3 0x1f3 0x1f1, .pairs 0x1f4 0x1f5,
   .capital 0x1f6 0x1f6 0x195, .capital 0x1f7 0x1f7 0x1bf, .pairs 0x1f8 0x21f,
   .capital 0x220 0x220 0x19e, .pairs 0x222 0x233, .capital 0x23a 0x23a 0x2c65,
   .pairs 0x23b 0x23c, .capital 0x23d 0x23d 0x19a, .capital 0x23e 0x23e 0x2c66,
   .small 0x23f 0x240 0x2c7e, .pairs 0x241 0x242, .capital 0x243 0x243 0x180,
   .capital 0x244 0x244 0x289, .capital 0x245 0x245 0x28c, .pairs 0x246 0x24f,
   .small 0x250 0x250 0x2c6f, .small 0x251 0x251 0x2c6d, .small 0x252 0x252 0x2c70,
   .small 0x253 0x253 0x181, .small 0x254 0x254 0x186, .small 0x256 0x257 0x189,
   .small 0x259 0x259 0x18f, .small 0x25b 0x25b 0x190, .small 0x25c 0x25c 0xa7ab,
   .small 0x260 0x260 0x193, .small 0x261 0x261 0xa7ac, .small 0x263 0x263 0x194,
   .small 0x264 0x264 0xa7cb, .small 0x265 0x265 0xa78d, .small 0x266 0x266 0xa7aa,
   .small 0x268 0x268 0x197, .small 0x269 0x269 0x196, .small 0x26a 0x26a 0xa7ae,
   .small 0x26b 0x26b 0x2c62, .small 0x26c 0x26c 0xa7ad, .small 0x26f 0x26f 0x19c,
   .small 0x271 0x271 0x2c6e, .small 0x272 0x272 0x19d, .small 0x275 0x275 0x19f,
   .small 0x27d 0x27d 0x2c64, .small 0x280 0x280 0x1a6, .small 0x282 0x282 0xa7c5,
   .small 0x283 0x283 0x1a9, .small 0x287 0x287 0xa7b1, .small 0x288 0x288 0x1ae,
   .small 0x289 0x289 0x244, .small 0x28a 0x28b 0x1b1, .small 0x28c 0x28c 0x245,
   .small 0x292 0x292 0x1b7, .small 0x29d 0x29d 0xa7b2, .small 0x29e 0x29e 0xa7b0,
   .small 0x345 0x345 0x399, .pairs 0x370 0x373, .pairs 0x376 0x377, .small 0x37b 0x37d 0x3fd,
   .capital 0x37f 0x37f 0x3f3, .capital 0x386 0x386 0x3ac, .capital 0x388 0x38a 0x3ad,
   .capital 0x38c 0x38c 0x3cc, .capital 0x38e 0x38f 0x3cd, .capital 0x391 0x3a1 0x3b1,
   .capital 0x3a3 0x3ab 0x3c3, .small 0x3ac 0x3ac 0x386, .small 0x3ad 0x3af 0x388,
   .small 0x3b1 0x3c1 0x391, .small 0x3c2 0x3c2 0x3a3, .small 0x3c3 0x3cb 0x3a3,
   .small 0x3cc 0x3cc 0x38c, .small 0x3cd 0x3ce 0x38e, .capital 0x3cf 0x3cf 0x3d7,
   .small 0x3d0 0x3d0 0x392, .small 0x3d1 0x3d1 0x398, .small 0x3d5 0x3d5 0x3a6,
   .small 0x3d6 0x3d6 0x3a0, .small 0x3d7 0x3d7 0x3cf, .pairs 0x3d8 0x3ef,
   .small 0x3f0 0x3f0 0x39a, .small 0x3f1 0x3f1 0x3a1, .small 0x3f2 0x3f2 0x3f9,
   .small 0x3f3 0x3f3 0x37f, .capital 0x3f4 0x3f4 0x3b8, .small 0x3f5 0x3f5 0x395,
   .pairs 0x3f7 0x3f8, .capital 0x3f9 0x3f9 0x3f2, .pairs 0x3fa 0x3fb, .capital 0x3fd 0x3ff 0x37b,
   .capital 0x400 0x40f 0x450, .capital 0x410 0x42f 0x430, .small 0x430 0x44f 0x410,
   .small 0x450 0x45f 0x400, .pairs 0x460 0x481, .pairs 0x48a 0x4bf, .capital 0x4c0 0x4c0 0x4cf,
   .pairs 0x4c1 0x4ce, .small 0x4cf 0x4cf 0x4c0, .pairs 0x4d0 0x52f, .capital 0x531 0x556 0x561,
   .small 0x561 0x586 0x531, .capital 0x10a0 0x10c5 0x2d00, .capital 0x10c7 0x10c7 0x2d27,
   .capital 0x10cd 0x10cd 0x2d2d, .small 0x10d0 0x10fa 0x1c90, .small 0x10fd 0x10ff 0x1cbd,
   .capital 0x13a0 0x13ef 0xab70, .capital 0x13f0 0x13f5 0x13f8, .small 0x13f8 0x13fd 0x13f0,
   .small 0x1c80 0x1c80 0x412, .small 0x1c81 0x1c81 0x414, .small 0x1c82 0x1c82 0x41e,
   .small 0x1c83 0x1c84 0x421, .small 0x1c85 0x1c85 0x422, .small 0x1c86 0x1c86 0x42a,
   .small 0x1c87 0x1c87 0x462, .small 0x1c88 0x1c88 0xa64a, .pairs 0x1c89 0x1c8a,
   .capital 0x1c90 0x1cba 0x10d0, .capital 0x1cbd 0x1cbf 0x10fd, .small 0x1d79 0x1d79 0xa77d,
   .small 0x1d7d 0x1d7d 0x2c63, .small 0x1d8e 0x1d8e 0xa7c6, .pairs 0x1e00 0x1e95,
   .small 0x1e9b 0x1e9b 0x1e60, .capital 0x1e9e 0x1e9e 0xdf, .pairs 0x1ea0 0x1eff,
   .small 0x1f00 0x1f07 0x1f08, .capital 0x1f08 0x1f0f 0x1f00, .small 0x1f10 0x1f15 0x1f18,
   .capital 0x1f18 0x1f1d 0x1f10, .small 0x1f20 0x1f27 0x1f28, .capital 0x1f28 0x1f2f 0x1f20,
   .small 0x1f30 0x1f37 0x1f38, .capital 0x1f38 0x1f3f 0x1f30, .small 0x1f40 0x1f45 0x1f48,
   .capital 0x1f48 0x1f4d 0x1f40, .small 0x1f51 0x1f51 0x1f59, .small 0x1f53 0x1f53 0x1f5b,
   .small 0x1f55 0x1f55 0x1f5d, .small 0x1f57 0x1f57 0x1f5f, .capital 0x1f59 0x1f59 0x1f51,
   .capital 0x1f5b 0x1f5b 0x1f53, .capital 0x1f5d 0x1f5d 0x1f55, .capital 0x1f5f 0x1f5f 0x1f57,
   .small 0x1f60 0x1f67 0x1f68, .capital 0x1f68 0x1f6f 0x1f60, .small 0x1f70 0x1f71 0x1fba,
   .small 0x1f72 0x1f75 0x1fc8, .small 0x1f76 0x1f77 0x1fda, .small 0x1f78 0x1f79 0x1ff8,
   .small 0x1f7a 0x1f7b 0x1fea, .small 0x1f7c 0x1f7d 0x1ffa, .capital 0x1f88 0x1f8f 0x1f80,
   .capital 0x1f98 0x1f9f 0x1f90, .capital 0x1fa8 0x1faf 0x1fa0, .small 0x1fb0 0x1fb1 0x1fb8,
   .capital 0x1fb8 0x1fb9 0x1fb0, .capital 0x1fba 0x1fbb 0x1f70, .capital 0x1fbc 0x1fbc 0x1fb3,
   .small 0x1fbe 0x1fbe 0x399, .capital 0x1fc8 0x1fcb 0x1f72, .capital 0x1fcc 0x1fcc 0x1fc3,
   .small 0x1fd0 0x1fd1 0x1fd8, .capital 0x1fd8 0x1fd9 0x1fd0, .capital 0x1fda 0x1fdb 0x1f76,
   .small 0x1fe0 0x1fe1 0x1fe8, .small 0x1fe5 0x1fe5 0x1fec, .capital 0x1fe8 0x1fe9 0x1fe0,
   .capital 0x1fea 0x1feb 0x1f7a, .capital 0x1fec 0x1fec 0x1fe5, .capital 0x1ff8 0x1ff9 0x1f78,
   .capital 0x1ffa 0x1ffb 0x1f7c, .capital 0x1ffc 0x1ffc 0x1ff3, .capital 0x2126 0x2126 0x3c9,
   .capital 0x212a 0x212a 0x6b, .capital 0x212b 0x212b 0xe5, .capital 0x2132 0x2132 0x214e,
   .small 0x214e 0x214e 0x2132, .capital 0x2160 0x216f 0x2170, .small 0x2170 0x217f 0x2160,
   .pairs 0x2183 0x2184, .capital 0x24b6 0x24cf 0x24d0, .small 0x24d0 0x24e9 0x24b6,
   .capital 0x2c00 0x2c2f 0x2c30, .small 0x2c30 0x2c5f 0x2c00, .pairs 0x2c60 0x2c61,
   .capital 0x2c62 0x2c62 0x26b, .capital 0x2c63 0x2c63 0x1d7d, .capital 0x2c64 0x2c64 0x27d,
   .small 0x2c65 0x2c65 0x23a, .small 0x2c66 0x2c66 0x23e, .pairs 0x2c67 0x2c6c,
   .capital 0x2c6d 0x2c6d 0x251, .capital 0x2c6e 0x2c6e 0x271, .capital 0x2c6f 0x2c6f 0x250,
   .capital 0x2c70 0x2c70 0x252, .pairs 0x2c72 0x2c73, .pairs 0x2c75 0x2c76,
   .capital 0x2c7e 0x2c7f 0x23f, .pairs 0x2c80 0x2ce3, .pairs 0x2ceb 0x2cee, .pairs 0x2cf2 0x2cf3,
   .small 0x2d00 0x2d25 0x10a0, .small 0x2d27 0x2d27 0x10c7, .small 0x2d2d 0x2d2d 0x10cd,
   .pairs 0xa640 0xa66d, .pairs 0xa680 0xa69b, .pairs 0xa722 0xa72f, .pairs 0xa732 0xa76f,
   .pairs 0xa779 0xa77c, .capital 0xa77d 0xa77d 0x1d79, .pairs 0xa77e 0xa787,
   .pairs 0xa78b 0xa78c, .capital 0xa78d 0xa78d 0x265, .pairs 0xa790 0xa793,
   .small 0xa794 0xa794 0xa7c4, .pairs 0xa796 0xa7a9, .capital 0xa7aa 0xa7aa 0x266,
   .capital 0xa7ab 0xa7ab 0x25c, .capital 0xa7ac 0xa7ac 0x261, .capital 0xa7ad 0xa7ad 0x26c,
   .capital 0xa7ae 0xa7ae 0x26a, .capital 0xa7b0 0xa7b0 0x29e, .capital 0xa7b1 0xa7b1 0x287,
   .capital 0xa7b2 0xa7b2 0x29d, .capital 0xa7b3 0xa7b3 0xab53, .pairs 0xa7b4 0xa7c3,
   .capital 0xa7c4 0xa7c4 0xa794, .capital 0xa7c5 0xa7c5 0x282, .capital 0xa7c6 0xa7c6 0x1d8e,
   .pairs 0xa7c7 0xa7ca, .capital 0xa7cb 0xa7cb 0x264, .pairs 0xa7cc 0xa7db,
   .capital 0xa7dc 0xa7dc 0x19b, .pairs 0xa7f5 0xa7f6, .small 0xab53 0xab53 0xa7b3,
   .small 0xab70 0xabbf 0x13a0, .capital 0xff21 0xff3a 0xff41, .small 0xff41 0xff5a 0xff21,
   .capital 0x10400 0x10427 0x10428, .small 0x10428 0x1044f 0x10400,
   .capital 0x104b0 0x104d3 0x104d8, .small 0x104d8 0x104fb 0x104b0,
   .capital 0x10570 0x1057a 0x10597, .capital 0x1057c 0x1058a 0x105a3,
   .capital 0x1058c 0x10592 0x105b3, .capital 0x10594 0x10595 0x105bb,
   .small 0x10597 0x105a1 0x10570, .small 0x105a3 0x105b1 0x1057c, .small 0x105b3 0x105b9 0x1058c,
   .small 0x105bb 0x105bc 0x10594, .capital 0x10c80 0x10cb2 0x10cc0,
   .small 0x10cc0 0x10cf2 0x10c80, .capital 0x10d50 0x10d65 0x10d70,
   .small 0x10d70 0x10d85 0x10d50, .capital 0x118a0 0x118bf 0x118c0,
   .small 0x118c0 0x118df 0x118a0, .capital 0x16e40 0x16e5f 0x16e60,
   .small 0x16e60 0x16e7f 0x16e40, .capital 0x16ea0 0x16eb8 0x16ebb,
   .small 0x16ebb 0x16ed3 0x16ea0, .capital 0x1e900 0x1e921 0x1e922,
   .small 0x1e922 0x1e943 0x1e900]

end GrammarForge

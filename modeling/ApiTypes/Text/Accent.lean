/-!
Folding of accents. A text is taken apart into base characters and combining marks, and the
marks are dropped, so that `Negociação` and `Negociacao` fold to the same text. Only base
letters of the Latin alphabet matter to names; a character with any other base stands for itself.
-/

namespace ApiTypes.Text

/-- Character numbers of the non-spacing combining marks, as closed ranges in rising order. -/
def markRanges : List (Nat × Nat) := [
  (768, 879), (1155, 1159), (1425, 1469), (1471, 1471), (1473, 1474), (1476, 1477), (1479, 1479),
  (1552, 1562), (1611, 1631), (1648, 1648), (1750, 1756), (1759, 1764), (1767, 1768),
  (1770, 1773), (1809, 1809), (1840, 1866), (1958, 1968), (2027, 2035), (2045, 2045),
  (2070, 2073), (2075, 2083), (2085, 2087), (2089, 2093), (2137, 2139), (2199, 2207),
  (2250, 2273), (2275, 2306), (2362, 2362), (2364, 2364), (2369, 2376), (2381, 2381),
  (2385, 2391), (2402, 2403), (2433, 2433), (2492, 2492), (2497, 2500), (2509, 2509),
  (2530, 2531), (2558, 2558), (2561, 2562), (2620, 2620), (2625, 2626), (2631, 2632),
  (2635, 2637), (2641, 2641), (2672, 2673), (2677, 2677), (2689, 2690), (2748, 2748),
  (2753, 2757), (2759, 2760), (2765, 2765), (2786, 2787), (2810, 2815), (2817, 2817),
  (2876, 2876), (2879, 2879), (2881, 2884), (2893, 2893), (2901, 2902), (2914, 2915),
  (2946, 2946), (3008, 3008), (3021, 3021), (3072, 3072), (3076, 3076), (3132, 3132),
  (3134, 3136), (3142, 3144), (3146, 3149), (3157, 3158), (3170, 3171), (3201, 3201),
  (3260, 3260), (3263, 3263), (3270, 3270), (3276, 3277), (3298, 3299), (3328, 3329),
  (3387, 3388), (3393, 3396), (3405, 3405), (3426, 3427), (3457, 3457), (3530, 3530),
  (3538, 3540), (3542, 3542), (3633, 3633), (3636, 3642), (3655, 3662), (3761, 3761),
  (3764, 3772), (3784, 3790), (3864, 3865), (3893, 3893), (3895, 3895), (3897, 3897),
  (3953, 3966), (3968, 3972), (3974, 3975), (3981, 3991), (3993, 4028), (4038, 4038),
  (4141, 4144), (4146, 4151), (4153, 4154), (4157, 4158), (4184, 4185), (4190, 4192),
  (4209, 4212), (4226, 4226), (4229, 4230), (4237, 4237), (4253, 4253), (4957, 4959),
  (5906, 5908), (5938, 5939), (5970, 5971), (6002, 6003), (6068, 6069), (6071, 6077),
  (6086, 6086), (6089, 6099), (6109, 6109), (6155, 6157), (6159, 6159), (6277, 6278),
  (6313, 6313), (6432, 6434), (6439, 6440), (6450, 6450), (6457, 6459), (6679, 6680),
  (6683, 6683), (6742, 6742), (6744, 6750), (6752, 6752), (6754, 6754), (6757, 6764),
  (6771, 6780), (6783, 6783), (6832, 6845), (6847, 6877), (6880, 6891), (6912, 6915),
  (6964, 6964), (6966, 6970), (6972, 6972), (6978, 6978), (7019, 7027), (7040, 7041),
  (7074, 7077), (7080, 7081), (7083, 7085), (7142, 7142), (7144, 7145), (7149, 7149),
  (7151, 7153), (7212, 7219), (7222, 7223), (7376, 7378), (7380, 7392), (7394, 7400),
  (7405, 7405), (7412, 7412), (7416, 7417), (7616, 7679), (8400, 8412), (8417, 8417),
  (8421, 8432), (11503, 11505), (11647, 11647), (11744, 11775), (12330, 12333), (12441, 12442),
  (42607, 42607), (42612, 42621), (42654, 42655), (42736, 42737), (43010, 43010), (43014, 43014),
  (43019, 43019), (43045, 43046), (43052, 43052), (43204, 43205), (43232, 43249), (43263, 43263),
  (43302, 43309), (43335, 43345), (43392, 43394), (43443, 43443), (43446, 43449), (43452, 43453),
  (43493, 43493), (43561, 43566), (43569, 43570), (43573, 43574), (43587, 43587), (43596, 43596),
  (43644, 43644), (43696, 43696), (43698, 43700), (43703, 43704), (43710, 43711), (43713, 43713),
  (43756, 43757), (43766, 43766), (44005, 44005), (44008, 44008), (44013, 44013), (64286, 64286),
  (65024, 65039), (65056, 65071), (66045, 66045), (66272, 66272), (66422, 66426), (68097, 68099),
  (68101, 68102), (68108, 68111), (68152, 68154), (68159, 68159), (68325, 68326), (68900, 68903),
  (68969, 68973), (69291, 69292), (69370, 69375), (69446, 69456), (69506, 69509), (69633, 69633),
  (69688, 69702), (69744, 69744), (69747, 69748), (69759, 69761), (69811, 69814), (69817, 69818),
  (69826, 69826), (69888, 69890), (69927, 69931), (69933, 69940), (70003, 70003), (70016, 70017),
  (70070, 70078), (70089, 70092), (70095, 70095), (70191, 70193), (70196, 70196), (70198, 70199),
  (70206, 70206), (70209, 70209), (70367, 70367), (70371, 70378), (70400, 70401), (70459, 70460),
  (70464, 70464), (70502, 70508), (70512, 70516), (70587, 70592), (70606, 70606), (70608, 70608),
  (70610, 70610), (70625, 70626), (70712, 70719), (70722, 70724), (70726, 70726), (70750, 70750),
  (70835, 70840), (70842, 70842), (70847, 70848), (70850, 70851), (71090, 71093), (71100, 71101),
  (71103, 71104), (71132, 71133), (71219, 71226), (71229, 71229), (71231, 71232), (71339, 71339),
  (71341, 71341), (71344, 71349), (71351, 71351), (71453, 71453), (71455, 71455), (71458, 71461),
  (71463, 71467), (71727, 71735), (71737, 71738), (71995, 71996), (71998, 71998), (72003, 72003),
  (72148, 72151), (72154, 72155), (72160, 72160), (72193, 72202), (72243, 72248), (72251, 72254),
  (72263, 72263), (72273, 72278), (72281, 72283), (72330, 72342), (72344, 72345), (72544, 72544),
  (72546, 72548), (72550, 72550), (72752, 72758), (72760, 72765), (72767, 72767), (72850, 72871),
  (72874, 72880), (72882, 72883), (72885, 72886), (73009, 73014), (73018, 73018), (73020, 73021),
  (73023, 73029), (73031, 73031), (73104, 73105), (73109, 73109), (73111, 73111), (73459, 73460),
  (73472, 73473), (73526, 73530), (73536, 73536), (73538, 73538), (73562, 73562), (78912, 78912),
  (78919, 78933), (90398, 90409), (90413, 90415), (92912, 92916), (92976, 92982), (94031, 94031),
  (94095, 94098), (94180, 94180), (113821, 113822), (118528, 118573), (118576, 118598),
  (119143, 119145), (119163, 119170), (119173, 119179), (119210, 119213), (119362, 119364),
  (121344, 121398), (121403, 121452), (121461, 121461), (121476, 121476), (121499, 121503),
  (121505, 121519), (122880, 122886), (122888, 122904), (122907, 122913), (122915, 122916),
  (122918, 122922), (123023, 123023), (123184, 123190), (123566, 123566), (123628, 123631),
  (124140, 124143), (124398, 124399), (124643, 124643), (124646, 124646), (124654, 124655),
  (124661, 124661), (125136, 125142), (125252, 125258), (917760, 917999)]

/-- A mark that combines with the character before it and takes no space of its own. -/
def isMark (c : Char) : Bool :=
  markRanges.any fun (first, last) => first ≤ c.toNat && c.toNat ≤ last

/-- Latin letters, each with the numbers of the characters that are this letter and marks. -/
def accentedLetters : List (Char × List Nat) := [
  ('A', [192, 193, 194, 195, 196, 197, 256, 258, 260, 461, 478, 480, 506, 512, 514, 550, 7680,
    7840, 7842, 7844, 7846, 7848, 7850, 7852, 7854, 7856, 7858, 7860, 7862, 8491]),
  ('B', [7682, 7684, 7686]),
  ('C', [199, 262, 264, 266, 268, 7688]),
  ('D', [270, 7690, 7692, 7694, 7696, 7698]),
  ('E', [200, 201, 202, 203, 274, 276, 278, 280, 282, 516, 518, 552, 7700, 7702, 7704, 7706,
    7708, 7864, 7866, 7868, 7870, 7872, 7874, 7876, 7878]),
  ('F', [7710]),
  ('G', [284, 286, 288, 290, 486, 500, 7712]),
  ('H', [292, 542, 7714, 7716, 7718, 7720, 7722]),
  ('I', [204, 205, 206, 207, 296, 298, 300, 302, 304, 463, 520, 522, 7724, 7726, 7880, 7882]),
  ('J', [308]),
  ('K', [310, 488, 7728, 7730, 7732, 8490]),
  ('L', [313, 315, 317, 7734, 7736, 7738, 7740]),
  ('M', [7742, 7744, 7746]),
  ('N', [209, 323, 325, 327, 504, 7748, 7750, 7752, 7754]),
  ('O', [210, 211, 212, 213, 214, 332, 334, 336, 416, 465, 490, 492, 524, 526, 554, 556, 558,
    560, 7756, 7758, 7760, 7762, 7884, 7886, 7888, 7890, 7892, 7894, 7896, 7898, 7900, 7902,
    7904, 7906]),
  ('P', [7764, 7766]),
  ('R', [340, 342, 344, 528, 530, 7768, 7770, 7772, 7774]),
  ('S', [346, 348, 350, 352, 536, 7776, 7778, 7780, 7782, 7784]),
  ('T', [354, 356, 538, 7786, 7788, 7790, 7792]),
  ('U', [217, 218, 219, 220, 360, 362, 364, 366, 368, 370, 431, 467, 469, 471, 473, 475, 532,
    534, 7794, 7796, 7798, 7800, 7802, 7908, 7910, 7912, 7914, 7916, 7918, 7920]),
  ('V', [7804, 7806]),
  ('W', [372, 7808, 7810, 7812, 7814, 7816]),
  ('X', [7818, 7820]),
  ('Y', [221, 374, 376, 562, 7822, 7922, 7924, 7926, 7928]),
  ('Z', [377, 379, 381, 7824, 7826, 7828]),
  ('a', [224, 225, 226, 227, 228, 229, 257, 259, 261, 462, 479, 481, 507, 513, 515, 551, 7681,
    7841, 7843, 7845, 7847, 7849, 7851, 7853, 7855, 7857, 7859, 7861, 7863]),
  ('b', [7683, 7685, 7687]),
  ('c', [231, 263, 265, 267, 269, 7689]),
  ('d', [271, 7691, 7693, 7695, 7697, 7699]),
  ('e', [232, 233, 234, 235, 275, 277, 279, 281, 283, 517, 519, 553, 7701, 7703, 7705, 7707,
    7709, 7865, 7867, 7869, 7871, 7873, 7875, 7877, 7879]),
  ('f', [7711]),
  ('g', [285, 287, 289, 291, 487, 501, 7713]),
  ('h', [293, 543, 7715, 7717, 7719, 7721, 7723, 7830]),
  ('i', [236, 237, 238, 239, 297, 299, 301, 303, 464, 521, 523, 7725, 7727, 7881, 7883]),
  ('j', [309, 496]),
  ('k', [311, 489, 7729, 7731, 7733]),
  ('l', [314, 316, 318, 7735, 7737, 7739, 7741]),
  ('m', [7743, 7745, 7747]),
  ('n', [241, 324, 326, 328, 505, 7749, 7751, 7753, 7755]),
  ('o', [242, 243, 244, 245, 246, 333, 335, 337, 417, 466, 491, 493, 525, 527, 555, 557, 559,
    561, 7757, 7759, 7761, 7763, 7885, 7887, 7889, 7891, 7893, 7895, 7897, 7899, 7901, 7903,
    7905, 7907]),
  ('p', [7765, 7767]),
  ('r', [341, 343, 345, 529, 531, 7769, 7771, 7773, 7775]),
  ('s', [347, 349, 351, 353, 537, 7777, 7779, 7781, 7783, 7785]),
  ('t', [355, 357, 539, 7787, 7789, 7791, 7793, 7831]),
  ('u', [249, 250, 251, 252, 361, 363, 365, 367, 369, 371, 432, 468, 470, 472, 474, 476, 533,
    535, 7795, 7797, 7799, 7801, 7803, 7909, 7911, 7913, 7915, 7917, 7919, 7921]),
  ('v', [7805, 7807]),
  ('w', [373, 7809, 7811, 7813, 7815, 7817, 7832]),
  ('x', [7819, 7821]),
  ('y', [253, 255, 375, 563, 7823, 7833, 7923, 7925, 7927, 7929]),
  ('z', [378, 380, 382, 7825, 7827, 7829])]

/-- The letter below the marks of `c`, or `c` itself. -/
def baseLetter (c : Char) : Char :=
  if c.toNat < 128 then c
  else ((accentedLetters.find? (·.2.contains c.toNat)).map (·.1)).getD c

/-- The text with every accented letter replaced by its base and every mark removed. -/
def foldAccents (cs : List Char) : List Char :=
  (cs.filter fun c => c.toNat < 128 || !isMark c).map baseLetter

end ApiTypes.Text

import BTron.Mozc.Tables

namespace BTron.Tibetan

open Mozc (lit)

-- The WylieValKind of a rule with the code points it has. No rule is of the kinds NONE,
-- APOSTROPHE and LIST.
inductive WylieVal where
  | tsheg
  | dot
  | underscore
  | pairSingle (base subjoined : Nat)
  | pairList (base subjoined : List Nat)
  | vowel (cp : Nat)
  | vowelList (cps : List Nat)
  | plus
  | otherInt (cp : Nat)

structure WylieRule where
  key : List UB
  val : WylieVal

private def rule (key : String) (val : WylieVal) : WylieRule := ⟨lit key, val⟩

-- g_rules
def wylieRules : List WylieRule :=
  [rule "gsh" (.pairList [0x0f42, 0x0f64] [0x0f92, 0x0fb4]),
    rule "gny" (.pairList [0x0f42, 0x0f49] [0x0f92, 0x0f99]),
    rule "gzh" (.pairList [0x0f42, 0x0f5e] [0x0f92, 0x0fae]),
    rule "g+h" (.pairList [0x0f42, 0x0fb7] [0x0f92, 0x0fb7]),
    rule "gc" (.pairList [0x0f42, 0x0f45] [0x0f92, 0x0f95]),
    rule "gd" (.pairList [0x0f42, 0x0f51] [0x0f92, 0x0fa1]),
    rule "gn" (.pairList [0x0f42, 0x0f53] [0x0f92, 0x0fa3]),
    rule "gh" (.pairList [0x0f42, 0x0fb7] [0x0f92, 0x0fb7]),
    rule "gz" (.pairList [0x0f42, 0x0f5f] [0x0f92, 0x0faf]),
    rule "gt" (.pairList [0x0f42, 0x0f4f] [0x0f92, 0x0f9f]),
    rule "gs" (.pairList [0x0f42, 0x0f66] [0x0f92, 0x0fb6]),
    rule "kh" (.pairSingle 0x0f41 0x0f91), rule "k" (.pairSingle 0x0f40 0x0f90),
    rule "g" (.pairSingle 0x0f42 0x0f92), rule "ch" (.pairSingle 0x0f46 0x0f96),
    rule "c" (.pairSingle 0x0f45 0x0f95), rule "j" (.pairSingle 0x0f47 0x0f97),
    rule "ny" (.pairSingle 0x0f49 0x0f99), rule "Th" (.pairSingle 0x0f4b 0x0f9b),
    rule "-th" (.pairSingle 0x0f4b 0x0f9b), rule "T" (.pairSingle 0x0f4a 0x0f9a),
    rule "-t" (.pairSingle 0x0f4a 0x0f9a),
    rule "Dh" (.pairList [0x0f4c, 0x0fb7] [0x0f9c, 0x0fb7]),
    rule "D+h" (.pairList [0x0f4c, 0x0fb7] [0x0f9c, 0x0fb7]),
    rule "-dh" (.pairList [0x0f4c, 0x0fb7] [0x0f9c, 0x0fb7]),
    rule "-d+h" (.pairList [0x0f4c, 0x0fb7] [0x0f9c, 0x0fb7]),
    rule "D" (.pairSingle 0x0f4c 0x0f9c), rule "-d" (.pairSingle 0x0f4c 0x0f9c),
    rule "N" (.pairSingle 0x0f4e 0x0f9e), rule "-n" (.pairSingle 0x0f4e 0x0f9e),
    rule "th" (.pairSingle 0x0f50 0x0fa0), rule "t" (.pairSingle 0x0f4f 0x0f9f),
    rule "dng" (.pairList [0x0f51, 0x0f44] [0x0fa1, 0x0f94]),
    rule "dzh" (.pairList [0x0f5b, 0x0fb7] [0x0fab, 0x0fb7]),
    rule "dz+h" (.pairList [0x0f5b, 0x0fb7] [0x0fab, 0x0fb7]),
    rule "dz" (.pairSingle 0x0f5b 0x0fab),
    rule "dm" (.pairList [0x0f51, 0x0f58] [0x0fa1, 0x0fa8]),
    rule "db" (.pairList [0x0f51, 0x0f56] [0x0fa1, 0x0fa6]),
    rule "dh" (.pairList [0x0f51, 0x0fb7] [0x0fa1, 0x0fb7]),
    rule "d+h" (.pairList [0x0f51, 0x0fb7] [0x0fa1, 0x0fb7]),
    rule "dp" (.pairList [0x0f51, 0x0f54] [0x0fa1, 0x0fa4]),
    rule "dk" (.pairList [0x0f51, 0x0f40] [0x0fa1, 0x0f90]),
    rule "dg" (.pairList [0x0f51, 0x0f42] [0x0fa1, 0x0f92]),
    rule "d" (.pairSingle 0x0f51 0x0fa1), rule "n" (.pairSingle 0x0f53 0x0fa3),
    rule "ngs" (.pairList [0x0f44, 0x0f66] [0x0f94, 0x0fb6]),
    rule "ng" (.pairSingle 0x0f44 0x0f94), rule "ph" (.pairSingle 0x0f55 0x0fa5),
    rule "p" (.pairSingle 0x0f54 0x0fa4),
    rule "brts" (.pairList [0x0f56, 0x0f62, 0x0fa9] [0x0fa6, 0x0fb2, 0x0fa9]),
    rule "brg" (.pairList [0x0f56, 0x0f62, 0x0f92] [0x0fa6, 0x0fb2, 0x0f92]),
    rule "brt" (.pairList [0x0f56, 0x0f62, 0x0f9f] [0x0fa6, 0x0fb2, 0x0f9f]),
    rule "brd" (.pairList [0x0f56, 0x0f62, 0x0fa1] [0x0fa6, 0x0fb2, 0x0fa1]),
    rule "bts" (.pairList [0x0f56, 0x0f59] [0x0fa6, 0x0fa9]),
    rule "bsh" (.pairList [0x0f56, 0x0f64] [0x0fa6, 0x0fb4]),
    rule "bzh" (.pairList [0x0f56, 0x0f5e] [0x0fa6, 0x0fae]),
    rule "b+h" (.pairList [0x0f56, 0x0fb7] [0x0fa6, 0x0fb7]),
    rule "bk" (.pairList [0x0f56, 0x0f40] [0x0fa6, 0x0f40]),
    rule "bc" (.pairList [0x0f56, 0x0f45] [0x0fa6, 0x0f95]),
    rule "bs" (.pairList [0x0f56, 0x0f66] [0x0fa6, 0x0fb6]),
    rule "bd" (.pairList [0x0f56, 0x0f51] [0x0fa6, 0x0fa1]),
    rule "bh" (.pairList [0x0f56, 0x0fb7] [0x0fa6, 0x0fb7]),
    rule "bz" (.pairList [0x0f56, 0x0f5f] [0x0fa6, 0x0faf]),
    rule "bt" (.pairList [0x0f56, 0x0f4f] [0x0fa6, 0x0f9f]),
    rule "b" (.pairSingle 0x0f56 0x0fa6),
    rule "mtsh" (.pairList [0x0f58, 0x0f5a] [0x0faa, 0x0faa]),
    rule "mny" (.pairList [0x0f58, 0x0f49] [0x0fa8, 0x0f99]),
    rule "mng" (.pairList [0x0f58, 0x0f44] [0x0fa8, 0x0f94]),
    rule "mch" (.pairList [0x0f58, 0x0f46] [0x0fa8, 0x0f96]),
    rule "mkh" (.pairList [0x0f58, 0x0f41] [0x0fa8, 0x0f91]),
    rule "mth" (.pairList [0x0f58, 0x0f50] [0x0fa8, 0x0fa0]),
    rule "mts" (.pairList [0x0f58, 0x0f59] [0x0fa8, 0x0fa9]),
    rule "mdz" (.pairList [0x0f58, 0x0f5b] [0x0fa8, 0x0fab]),
    rule "mg" (.pairList [0x0f58, 0x0f42] [0x0fa8, 0x0f92]),
    rule "ms" (.pairList [0x0f58, 0x0f66] [0x0fa8, 0x0fb6]),
    rule "m" (.pairSingle 0x0f58 0x0fa8), rule "tsh" (.pairSingle 0x0f5a 0x0faa),
    rule "ts" (.pairSingle 0x0f59 0x0fa9), rule "zh" (.pairSingle 0x0f5e 0x0fae),
    rule "z" (.pairSingle 0x0f5f 0x0faf), rule "w" (.pairSingle 0x0f5d 0x0fad),
    rule "'" (.pairSingle 0x0f60 0x0fb0), rule "‘" (.pairSingle 0x0f60 0x0fb0),
    rule "’" (.pairSingle 0x0f60 0x0fb0), rule "y" (.pairSingle 0x0f61 0x0fb1),
    rule "r" (.pairSingle 0x0f62 0x0fb2), rule "l" (.pairSingle 0x0f63 0x0fb3),
    rule "sh" (.pairSingle 0x0f64 0x0fb4), rule "Sh" (.pairSingle 0x0f65 0x0fb5),
    rule "-sh" (.pairSingle 0x0f65 0x0fb5), rule "s" (.pairSingle 0x0f66 0x0fb6),
    rule "h" (.pairSingle 0x0f67 0x0fb7), rule "W" (.pairSingle 0x0f5d 0x0fba),
    rule "Y" (.pairSingle 0x0f61 0x0fbb), rule "R" (.pairSingle 0x0f6a 0x0fbc),
    rule "f" (.pairList [0x0f55, 0x0f39] [0x66]), rule "v" (.pairList [0x0f56, 0x0f39] [0x76]),
    rule "'i" (.vowelList [0x0f60, 0x0f72]), rule "'o" (.vowelList [0x0f60, 0x0f7c]),
    rule "+'i" (.vowel 0x0f72), rule "'u" (.vowelList [0x0f60, 0x0f74]),
    rule "'a" (.vowel 0x0f71), rule "ai" (.vowel 0x0f7b), rule "au" (.vowel 0x0f7d),
    rule "-I" (.vowelList [0x0f71, 0x0f80]), rule "-i" (.vowel 0x0f80),
    rule "I" (.vowelList [0x0f71, 0x0f72]), rule "U" (.vowelList [0x0f71, 0x0f74]),
    rule "a" (.vowel 0x0f68), rule "A" (.vowel 0x0f71), rule "i" (.vowel 0x0f72),
    rule "u" (.vowel 0x0f74), rule "e" (.vowel 0x0f7a), rule "o" (.vowel 0x0f7c),
    rule "r-I" (.pairList [0x0f62, 0x0f71, 0x0f80] [0x0fb2, 0x0f71, 0x0f80]),
    rule "r-i" (.pairList [0x0f62, 0x0f80] [0x0fb2, 0x0f80]),
    rule "l-I" (.pairList [0x0f63, 0x0f71, 0x0f80] [0x0fb3, 0x0f71, 0x0f80]),
    rule "l-i" (.pairList [0x0f63, 0x0f80] [0x0fb3, 0x0f80]), rule "~M`" (.otherInt 0x0f82),
    rule "~M" (.otherInt 0x0f83), rule "~X" (.otherInt 0x0f35), rule "M" (.otherInt 0x0f7e),
    rule "H" (.otherInt 0x0f7f), rule "?" (.otherInt 0x0f84), rule "X" (.otherInt 0x0f37),
    rule "^" (.otherInt 0x0f39), rule "//" (.otherInt 0x0f0e), rule " " .tsheg,
    rule "*" (.otherInt 0x0f0c), rule "/" (.otherInt 0x0f0d), rule ";" (.otherInt 0x0f0f),
    rule "|" (.otherInt 0x0f11), rule "!" (.otherInt 0x0f08), rule ":" (.otherInt 0x0f14),
    rule "+" .plus, rule "_" .underscore, rule "." .dot, rule "=" (.otherInt 0x0f34),
    rule "<" (.otherInt 0x0f3a), rule ">" (.otherInt 0x0f3b), rule "(" (.otherInt 0x0f3c),
    rule ")" (.otherInt 0x0f3d), rule "@" (.otherInt 0x0f04), rule "#" (.otherInt 0x0f05),
    rule "$" (.otherInt 0x0f06), rule "%" (.otherInt 0x0f07), rule "0" (.otherInt 0x0f20),
    rule "1" (.otherInt 0x0f21), rule "2" (.otherInt 0x0f22), rule "3" (.otherInt 0x0f23),
    rule "4" (.otherInt 0x0f24), rule "5" (.otherInt 0x0f25), rule "6" (.otherInt 0x0f26),
    rule "7" (.otherInt 0x0f27), rule "8" (.otherInt 0x0f28), rule "9" (.otherInt 0x0f29)]

-- TibetanDictEntry
structure TibetanDictEntry where
  wylie : List UB
  tibetan : List UB
  english : List UB

private def entry (wylie tibetan english : String) : TibetanDictEntry :=
  ⟨lit wylie, lit tibetan, lit english⟩

-- g_tibetan_lexicon
def tibetanLexicon : List TibetanDictEntry :=
  [entry "chos" "ཆོས" "dharma / phenomenon / teaching / truth / reality",
    entry "chos_nyid" "ཆོས་ཉིད" "dharmatā / nature of reality / true nature",
    entry "chos_kyi_dbyings" "ཆོས་ཀྱི་དབྱིངས" "dharmadhātu / expanse of reality / sphere of phenomena",
    entry "chos_sku" "ཆོས་སྐུ" "dharmakāya / truth body of the Buddha",
    entry "chos_can" "ཆོས་ཅན" "dharmin / subject / property-possessor",
    entry "chos_rnams" "ཆོས་རྣམས" "all dharmas / all phenomena",
    entry "chos_thams_cad" "ཆོས་ཐམས་ཅད" "all phenomena / all things without exception",
    entry "shes_rab" "ཤེས་རབ" "prajñā / transcendent wisdom / discriminating awareness",
    entry "pha_rol_tu_phyin_pa" "pha_rol_tu_phyin_pa" "pāramitā / perfection / gone to the other shore",
    entry "shes_rab_snying_po" "ཤེས་རབ་སྙིང་པོ" "Prajñāpāramitā Hṛdaya / Heart Sutra",
    entry "snying_po" "སྙིང་པོ" "hṛdaya / essence / core / pith",
    entry "stong_pa" "སྟོང་པ" "empty / void / hollow / non-inherent",
    entry "stong_pa_nyid" "སྟོང་པ་ཉིད" "śūnyatā / emptiness / lack of inherent existence",
    entry "gzugs" "གཟུགས" "rūpa / form / matter / physical appearance",
    entry "tshor_ba" "ཚོར་བ" "vedanā / feeling / sensation",
    entry "du_shes" "'du_shes" "saṃjñā / perception / conceptual cognition",
    entry "'du_shes" "'du_shes" "saṃjñā / perception / recognition",
    entry "'du_byed" "'du_byed" "saṃskāra / formative factors / volitional formations",
    entry "rnam_shes" "རྣམ་ཤེས" "vijñāna / consciousness / cognitive awareness",
    entry "rnam_par_shes_pa" "རྣམ་པར་ཤེས་པ" "vijñāna / primary consciousness",
    entry "phung_po" "ཕུང་པོ" "skandha / aggregate / collection / heap",
    entry "phung_po_lnga" "ཕུང་པོ་ལྔ" "five aggregates of clinging",
    entry "bden_pa" "བདེན་པ" "satya / truth / real existence",
    entry "bden_pa_bzhi" "བདེན་པ་བཞི" "Four Noble Truths",
    entry "sdug_bsngal" "སྡུག་བསྔལ" "duḥkha / suffering / unsatisfactoriness",
    entry "kun_'byung" "ཀུན་འབྱུང" "samudaya / origin of suffering",
    entry "'gog_pa" "'gog_pa" "nirodha / cessation of suffering",
    entry "lam" "ལམ" "mārga / path to liberation",
    entry "kun_rdzob" "ཀུན་རྫོབ" "saṃvṛti / conventional / relative truth",
    entry "don_dam" "དོན་དམ" "paramārtha / ultimate / absolute truth",
    entry "dbu_ma" "དབུ་མ" "Madhyamaka / Middle Way Philosophy",
    entry "sangs_rgyas" "སངས་རྒྱས" "Buddha / Awakened One / Fully Enlightened",
    entry "byang_chub" "བྱང་ཆུབ" "bodhi / enlightenment / awakening",
    entry "byang_chub_sems" "བྱང་ཆུབ་སེམས" "bodhicitta / mind of enlightenment",
    entry "byang_chub_sems_dpa'" "བྱང་ཆུབ་སེམས་དཔའ" "bodhisattva / heroic awakening being",
    entry "bla_ma" "བླ་མ" "Guru / Spiritual Teacher / Supreme Master",
    entry "yi_dam" "ཡི་དམ" "Iṣṭadevatā / Meditation Deity",
    entry "mkha'_'gro_ma" "མཁའ་འགྲོ་མ" "Dākinī / Sky-farer / Wisdom Goddess",
    entry "chos_skyong" "ཆོས་སྐྱོང" "Dharmapāla / Dharma Protector",
    entry "dge_slong" "དགེ་སློང" "Bhikṣu / Fully Ordained Buddhist Monk",
    entry "dge_'dun" "དགེ་འདུན" "Saṅgha / Noble Spiritual Community",
    entry "dkon_mchog_gsum" "དཀོན་མཆོག་གསུམ" "Three Jewels / Triratna (Buddha, Dharma, Sangha)",
    entry "bcom_ldan_'das" "བཅོམ་ལྡན་འདས" "Bhagavān / Victorious Lord / Transcendent One",
    entry "spyan_ras_gzigs" "སྤྱན་རས་གཟིགས" "Avalokiteśvara / Lord of Infinite Compassion",
    entry "sha_ri'i_bu" "ཤཱ་རིའི་བུ" "Śāriputra / Foremost Disciple in Wisdom",
    entry "rgyal_po" "རྒྱལ་པོ" "Rāja / King / Sovereign Ruler",
    entry "sems_can" "སེམས་ཅན" "sattva / sentient beings / living beings",
    entry "ting_nge_'dzin" "ཏིང་ངེ་འཛིན" "samādhi / meditative absorption / meditative state",
    entry "zhi_gnas" "ཞི་གནས" "śamatha / calm abiding / mental tranquility",
    entry "lhag_mthong" "ལྷག་མཐོང" "vipaśyanā / special insight / deep seeing",
    entry "ye_shes" "ཡེ་ཤེས" "jñāna / primordial wisdom / timeless awareness",
    entry "thabs" "ཐབས" "upāya / skillful means / method",
    entry "snying_rje" "སྙིང་རྗེ" "karuṇā / compassionate heart",
    entry "byams_pa" "བྱམས་པ" "maitrī / loving-kindness / Maitreya",
    entry "bde_ba" "བདེ་བ" "sukha / bliss / genuine happiness",
    entry "myang_'das" "མྱང་འདས" "nirvāṇa / state beyond sorrow / liberation",
    entry "grol_ba" "གྲོལ་བ" "mokṣa / liberation / freedom from saṃsāra",
    entry "'khor_ba" "'khor_ba" "saṃsāra / cyclic existence of rebirth",
    entry "las" "ལས" "karma / intentional action and cause-effect",
    entry "bsod_nams" "བསོད་ནམས" "puṇya / spiritual merit / virtue",
    entry "dam_chos" "དམ་ཆོས" "Saddharma / Holy Sacred Doctrine",
    entry "zag_med" "ཟག་མེད" "anāsrava / untainted / uncontaminated",
    entry "ma_skyes_pa" "མ་སྐྱེས་པ" "anutpāda / unproduced / unborn",
    entry "ma_'gags_pa" "མ་འགགས་པ" "anirodha / unceasing / indestructible",
    entry "sku" "སྐུ" "kāya / sacred body / enlightened dimension",
    entry "gsung" "གསུང" "vāk / sacred speech / enlightened voice",
    entry "thugs" "ཐུགས" "citta / sacred enlightened mind / wisdom heart",
    entry "sku_gsum" "སྐུ་གསུམ" "Trikāya / Three Dimensions of Buddhahood",
    entry "sprul_sku" "སྤྲུལ་སྐུ" "nirmāṇakāya / emanation body / Tulku",
    entry "longs_sku" "ལོངས་སྐུ" "saṃbhogakāya / enjoyment body of light",
    entry "ngo_bo_nyid_sku" "ངོ་བོ་ཉིད་སྐུ" "svābhāvikakāya / essential nature body",
    entry "bka'_'gyur" "བཀའ་འགྱུར" "Kangyur / Translated Word of the Buddha Canon",
    entry "bstan_'gyur" "བསྟན་འགྱུར" "Tengyur / Translated Shastras & Commentaries",
    entry "mdo" "མདོ" "Sūtra / Canonical Buddhist Discourse",
    entry "rgyud" "རྒྱུད" "Tantra / Vajrayana Continuous Stream",
    entry "man_ngag" "མན་ངག" "Upadeśa / Secret Pith Instruction",
    entry "klong_chen_snying_thig" "ཀློང་ཆེན་སྙིང་ཐིག" "Longchen Nyingthig / Heart Essence of the Vast Expanse",
    entry "rdzogs_chen" "རྫོགས་ཆེན" "Dzogchen / Great Perfection / Atiyoga",
    entry "phyag_rgya_chen_po" "ཕྱག་རྒྱ་ཆེན་པོ" "Mahāmudrā / Great Seal of Reality",
    entry "tshad_ma" "ཚད་མ" "Pramāṇa / Valid Cognition & Buddhist Logic",
    entry "oM" "ཨོཾ" "OṂ / Primordial Seed Syllable",
    entry "AH" "ཨཱཿ" "ĀḤ / Seed Syllable of Pure Speech",
    entry "hU~M" "ཧཱུྃ" "HŪṂ / Seed Syllable of Wisdom Mind",
    entry "swA_hA" "སྭཱ་ཧཱ" "Svāhā / Mantra Benediction & Accomplishment",
    entry "badz_ra" "བཛྲ" "Vajra / Indestructible Diamond Scepter",
    entry "pad_ma" "པདྨ" "Padma / Sacred Lotus of Pristine Purity",
    entry "rat_na" "རཏྣ" "Ratna / Wish-Fulfilling Jewel",
    entry "kar_ma" "ཀརྨ" "Karma / Enlightened Activity Family"]

-- The words are short, and none ends in a mark.
theorem tibetanLexicon_words : ∀ e ∈ tibetanLexicon,
    e.tibetan.length < 60 ∧ 0 ∉ e.tibetan ∧
      ¬[0xE0, 0xBC, 0x8B] <:+ e.tibetan ∧ ¬[0xE0, 0xBC, 0x8D] <:+ e.tibetan := by
  simp only [tibetanLexicon, entry, Mozc.lit_eq]
  decide +kernel

-- No two words are spelled alike.
theorem tibetanLexicon_find : ∀ e ∈ tibetanLexicon,
    (tibetanLexicon.find? (·.wylie == e.wylie)).map (·.tibetan) = some e.tibetan := by
  simp only [tibetanLexicon, entry, Mozc.lit_eq]
  decide +kernel

end BTron.Tibetan

import BTron.Lib.Utf8
import BTron.Types

namespace BTron.Mozc

open Lib

-- A string constant of the source, which is UTF-8.
def lit (s : String) : List UB := Utf8.bytes s.toList

theorem lit_eq : lit = fun s => s.toByteArray.data.toList := funext Utf8.bytes_toList

-- MOZC_POS
inductive MozcPos where
  | bos
  | noun
  | properNoun
  | verb
  | adjective
  | particle
  | auxVerb
  | suffix
  | symbol
  | eos
  deriving DecidableEq

-- RawDictEntry
structure RawDictEntry where
  reading : List UB
  value : List UB
  annotation : List UB
  pos : MozcPos
  cost : Nat

private def raw (reading value annotation : String) (pos : MozcPos) (cost : Nat) : RawDictEntry :=
  ⟨lit reading, lit value, lit annotation, pos, cost⟩

-- g_romaji_table
def romajiTable : List (List UB × List UB) :=
  [("hwyu", "ふゅ"), ("t'yu", "てゅ"), ("d'yu", "でゅ"), ("xtsu", "っ"), ("ltsu", "っ"), ("kya", "きゃ"),
    ("kyi", "きぃ"), ("kyu", "きゅ"), ("kye", "きぇ"), ("kyo", "きょ"), ("gya", "ぎゃ"), ("gyi", "ぎぃ"),
    ("gyu", "ぎゅ"), ("gye", "ぎぇ"), ("gyo", "ぎょ"), ("sya", "しゃ"), ("syi", "しぃ"), ("syu", "しゅ"),
    ("sye", "しぇ"), ("syo", "しょ"), ("sha", "しゃ"), ("shi", "し"), ("shu", "しゅ"), ("she", "しぇ"),
    ("sho", "しょ"), ("zya", "じゃ"), ("zyi", "じぃ"), ("zyu", "じゅ"), ("zye", "じぇ"), ("zyo", "じょ"),
    ("tya", "ちゃ"), ("tyi", "ちぃ"), ("tyu", "ちゅ"), ("tye", "ちぇ"), ("tyo", "ちょ"), ("cha", "ちゃ"),
    ("chi", "ち"), ("chu", "ちゅ"), ("che", "ちぇ"), ("cho", "ちょ"), ("cya", "ちゃ"), ("cyi", "ちぃ"),
    ("cyu", "ちゅ"), ("cye", "ちぇ"), ("cyo", "ちょ"), ("dya", "ぢゃ"), ("dyi", "ぢぃ"), ("dyu", "ぢゅ"),
    ("dye", "ぢぇ"), ("dyo", "ぢょ"), ("tsa", "つぁ"), ("tsi", "つぃ"), ("tse", "つぇ"), ("tso", "つぉ"),
    ("tsu", "つ"), ("tha", "てゃ"), ("thi", "てぃ"), ("t'i", "てぃ"), ("thu", "てゅ"), ("the", "てぇ"),
    ("tho", "てょ"), ("dha", "でゃ"), ("dhi", "でぃ"), ("d'i", "でぃ"), ("dhu", "でゅ"), ("dhe", "でぇ"),
    ("dho", "でょ"), ("twa", "とぁ"), ("twi", "とぃ"), ("twu", "とぅ"), ("twe", "とぇ"), ("two", "とぉ"),
    ("t'u", "とぅ"), ("dwa", "どぁ"), ("dwi", "どぃ"), ("dwu", "どぅ"), ("dwe", "どぇ"), ("dwo", "どぉ"),
    ("d'u", "どぅ"), ("nya", "にゃ"), ("nyi", "にぃ"), ("nyu", "にゅ"), ("nye", "にぇ"), ("nyo", "にょ"),
    ("hya", "ひゃ"), ("hyi", "ひぃ"), ("hyu", "ひゅ"), ("hye", "ひぇ"), ("hyo", "ひょ"), ("bya", "びゃ"),
    ("byi", "びぃ"), ("byu", "びゅ"), ("bye", "びぇ"), ("byo", "びょ"), ("pya", "ぴゃ"), ("pyi", "ぴぃ"),
    ("pyu", "ぴゅ"), ("pye", "ぴぇ"), ("pyo", "ぴょ"), ("fa", "ふぁ"), ("fi", "ふぃ"), ("fu", "ふ"),
    ("fe", "ふぇ"), ("fo", "ふぉ"), ("fya", "ふゃ"), ("fyu", "ふゅ"), ("fyo", "ふょ"), ("hwa", "ふぁ"),
    ("hwi", "ふぃ"), ("hwe", "ふぇ"), ("hwo", "ふぉ"), ("mya", "みゃ"), ("myi", "みぃ"), ("myu", "みゅ"),
    ("mye", "みぇ"), ("myo", "みょ"), ("rya", "りゃ"), ("ryi", "りぃ"), ("ryu", "りゅ"), ("rye", "りぇ"),
    ("ryo", "りょ"), ("va", "ゔぁ"), ("vi", "ゔぃ"), ("vu", "ゔ"), ("ve", "ゔぇ"), ("vo", "ゔぉ"),
    ("vya", "ゔゃ"), ("vyi", "ゔぃ"), ("vyu", "ゔゅ"), ("vye", "ゔぇ"), ("vyo", "ゔょ"), ("jya", "じゃ"),
    ("jyi", "じぃ"), ("jyu", "じゅ"), ("jye", "じぇ"), ("jyo", "じょ"), ("kwa", "くぁ"), ("kwi", "くぃ"),
    ("kwu", "くぅ"), ("kwe", "くぇ"), ("kwo", "くぉ"), ("gwa", "ぐぁ"), ("gwi", "ぐぃ"), ("gwu", "ぐぅ"),
    ("gwe", "ぐぇ"), ("gwo", "ぐぉ"), ("swa", "すぁ"), ("swi", "すぃ"), ("swu", "すぅ"), ("swe", "すぇ"),
    ("swo", "すぉ"), ("zwa", "ずぁ"), ("zwi", "ずぃ"), ("zwu", "ずぅ"), ("zwe", "ずぇ"), ("zwo", "ずぉ"),
    ("wha", "うぁ"), ("whi", "うぃ"), ("whu", "う"), ("whe", "うぇ"), ("who", "うぉ"), ("wyi", "ゐ"),
    ("wye", "ゑ"), ("xya", "ゃ"), ("xyu", "ゅ"), ("xyo", "ょ"), ("xwa", "ゎ"), ("xka", "ヵ"),
    ("xke", "ヶ"), ("lya", "ゃ"), ("lyu", "ゅ"), ("lyo", "ょ"), ("lwa", "ゎ"), ("lka", "ヵ"),
    ("lke", "ヶ"), ("xtu", "っ"), ("ltu", "っ"), ("xyi", "ぃ"), ("lyi", "ぃ"), ("xye", "ぇ"),
    ("lye", "ぇ"), ("tch", "っch"), ("ka", "か"), ("ki", "き"), ("ku", "く"), ("ke", "け"),
    ("ko", "こ"), ("ga", "が"), ("gi", "ぎ"), ("gu", "ぐ"), ("ge", "げ"), ("go", "ご"), ("sa", "さ"),
    ("si", "し"), ("su", "す"), ("se", "せ"), ("so", "そ"), ("za", "ざ"), ("zi", "じ"), ("zu", "ず"),
    ("ze", "ぜ"), ("zo", "ぞ"), ("ta", "た"), ("ti", "ち"), ("tu", "つ"), ("te", "て"), ("to", "と"),
    ("da", "だ"), ("di", "ぢ"), ("du", "づ"), ("de", "で"), ("do", "ど"), ("na", "な"), ("ni", "に"),
    ("nu", "ぬ"), ("ne", "ね"), ("no", "の"), ("ha", "は"), ("hi", "ひ"), ("hu", "ふ"), ("he", "へ"),
    ("ho", "ほ"), ("ba", "ば"), ("bi", "び"), ("bu", "ぶ"), ("be", "べ"), ("bo", "ぼ"), ("pa", "ぱ"),
    ("pi", "ぴ"), ("pu", "ぷ"), ("pe", "ぺ"), ("po", "ぽ"), ("ma", "ま"), ("mi", "み"), ("mu", "む"),
    ("me", "め"), ("mo", "も"), ("ya", "や"), ("yu", "ゆ"), ("yo", "よ"), ("ye", "いぇ"), ("ra", "ら"),
    ("ri", "り"), ("ru", "る"), ("re", "れ"), ("ro", "ろ"), ("wa", "わ"), ("wi", "うぃ"), ("wu", "う"),
    ("we", "うぇ"), ("wo", "を"), ("ja", "じゃ"), ("ji", "じ"), ("ju", "じゅ"), ("je", "じぇ"),
    ("jo", "じょ"), ("ca", "か"), ("ci", "し"), ("cu", "く"), ("ce", "せ"), ("co", "こ"), ("qa", "くぁ"),
    ("qi", "くぃ"), ("qu", "く"), ("qe", "くぇ"), ("qo", "くぉ"), ("xa", "ぁ"), ("xi", "ぃ"), ("xu", "ぅ"),
    ("xe", "ぇ"), ("xo", "ぉ"), ("la", "ぁ"), ("li", "ぃ"), ("lu", "ぅ"), ("le", "ぇ"), ("lo", "ぉ"),
    ("nn", "ん"), ("n'", "ん"), ("xn", "ん"), ("z/", "・"), ("z.", "…"), ("z,", "‥"), ("zh", "←"),
    ("zj", "↓"), ("zk", "↑"), ("zl", "→"), ("z-", "〜"), ("z[", "『"), ("z]", "』"), ("a", "あ"),
    ("i", "い"), ("u", "う"), ("e", "え"), ("o", "お"), ("-", "ー"), (",", "、"), (".", "。"),
    ("~", "〜"), ("[", "「"), ("]", "」"), ("n", "ん")].map fun (romaji, hiragana) =>
      (lit romaji, lit hiragana)

-- The switch of mozc_hiragana_to_halfwidth_katakana.
def halfwidthTable : List (Nat × List UB) :=
  [(0x30A1, "ｧ"), (0x30A2, "ｱ"), (0x30A3, "ｨ"), (0x30A4, "ｲ"), (0x30A5, "ｩ"), (0x30A6, "ｳ"),
    (0x30A7, "ｪ"), (0x30A8, "ｴ"), (0x30A9, "ｫ"), (0x30AA, "ｵ"), (0x30AB, "ｶ"), (0x30AC, "ｶﾞ"),
    (0x30AD, "ｷ"), (0x30AE, "ｷﾞ"), (0x30AF, "ｸ"), (0x30B0, "ｸﾞ"), (0x30B1, "ｹ"), (0x30B2, "ｹﾞ"),
    (0x30B3, "ｺ"), (0x30B4, "ｺﾞ"), (0x30B5, "ｻ"), (0x30B6, "ｻﾞ"), (0x30B7, "ｼ"), (0x30B8, "ｼﾞ"),
    (0x30B9, "ｽ"), (0x30BA, "ｽﾞ"), (0x30BB, "ｾ"), (0x30BC, "ｾﾞ"), (0x30BD, "ｿ"), (0x30BE, "ｿﾞ"),
    (0x30BF, "ﾀ"), (0x30C0, "ﾀﾞ"), (0x30C1, "ﾁ"), (0x30C2, "ﾁﾞ"), (0x30C3, "ｯ"), (0x30C4, "ﾂ"),
    (0x30C5, "ﾂﾞ"), (0x30C6, "ﾃ"), (0x30C7, "ﾃﾞ"), (0x30C8, "ﾄ"), (0x30C9, "ﾄﾞ"), (0x30CA, "ﾅ"),
    (0x30CB, "ﾆ"), (0x30CC, "ﾇ"), (0x30CD, "ﾈ"), (0x30CE, "ﾉ"), (0x30CF, "ﾊ"), (0x30D0, "ﾊﾞ"),
    (0x30D1, "ﾊﾟ"), (0x30D2, "ﾋ"), (0x30D3, "ﾋﾞ"), (0x30D4, "ﾋﾟ"), (0x30D5, "ﾌ"), (0x30D6, "ﾌﾞ"),
    (0x30D7, "ﾌﾟ"), (0x30D8, "ﾍ"), (0x30D9, "ﾍﾞ"), (0x30DA, "ﾍﾟ"), (0x30DB, "ﾎ"), (0x30DC, "ﾎﾞ"),
    (0x30DD, "ﾎﾟ"), (0x30DE, "ﾏ"), (0x30DF, "ﾐ"), (0x30E0, "ﾑ"), (0x30E1, "ﾒ"), (0x30E2, "ﾓ"),
    (0x30E3, "ｬ"), (0x30E4, "ﾔ"), (0x30E5, "ｭ"), (0x30E6, "ﾕ"), (0x30E7, "ｮ"), (0x30E8, "ﾖ"),
    (0x30E9, "ﾗ"), (0x30EA, "ﾘ"), (0x30EB, "ﾙ"), (0x30EC, "ﾚ"), (0x30ED, "ﾛ"), (0x30EF, "ﾜ"),
    (0x30F2, "ｦ"), (0x30F3, "ﾝ"), (0x30FC, "ｰ")].map fun (cp, hk) => (cp, lit hk)

-- g_system_dictionary
def systemDictionary : List RawDictEntry :=
  [raw "わたし" "私" "pronoun" .noun 1200, raw "わたし" "わたし" "hiragana" .noun 1500,
    raw "わたくし" "私" "formal" .noun 1300, raw "ぼく" "僕" "pronoun" .noun 1200,
    raw "おれ" "俺" "pronoun" .noun 1400, raw "あなた" "貴方" "pronoun" .noun 1300,
    raw "かれ" "彼" "pronoun" .noun 1200, raw "かのじょ" "彼女" "pronoun" .noun 1200,
    raw "の" "の" "particle" .particle 400, raw "は" "は" "topic particle" .particle 400,
    raw "わ" "は" "topic particle" .particle 450, raw "が" "が" "subject particle" .particle 450,
    raw "を" "を" "object particle" .particle 450, raw "に" "に" "locative particle" .particle 450,
    raw "へ" "へ" "directional particle" .particle 500,
    raw "で" "で" "instrumental particle" .particle 450,
    raw "と" "と" "conjunctive particle" .particle 450,
    raw "も" "も" "inclusive particle" .particle 450,
    raw "から" "から" "source particle" .particle 500, raw "まで" "まで" "limit particle" .particle 500,
    raw "より" "より" "comparison particle" .particle 550,
    raw "です" "です" "polite copula" .auxVerb 500, raw "だ" "だ" "plain copula" .auxVerb 500,
    raw "ます" "ます" "polite suffix" .auxVerb 500, raw "でした" "でした" "past copula" .auxVerb 600,
    raw "なまえ" "名前" "noun" .noun 1000, raw "なまえ" "なまえ" "hiragana" .noun 1400,
    raw "きょう" "今日" "time noun" .noun 800, raw "きょう" "教" "kanji" .noun 2000,
    raw "あした" "明日" "time noun" .noun 900, raw "きのう" "昨日" "time noun" .noun 900,
    raw "いま" "今" "time noun" .noun 800, raw "ほん" "本" "noun" .noun 900,
    raw "にほん" "日本" "proper noun" .properNoun 700, raw "にほんご" "日本語" "language" .noun 750,
    raw "えいご" "英語" "language" .noun 850, raw "がっこう" "学校" "noun" .noun 900,
    raw "だいがく" "大学" "noun" .noun 900, raw "かいしゃ" "会社" "noun" .noun 900,
    raw "しごと" "仕事" "noun" .noun 950, raw "せんせい" "先生" "honorific noun" .noun 900,
    raw "がくせい" "学生" "noun" .noun 950, raw "ともだち" "友達" "noun" .noun 1000,
    raw "かぞく" "家族" "noun" .noun 1000, raw "てんき" "天気" "noun" .noun 1000,
    raw "みず" "水" "noun" .noun 900, raw "ごはん" "ご飯" "noun" .noun 950,
    raw "くるま" "車" "noun" .noun 950, raw "でんしゃ" "電車" "noun" .noun 950,
    raw "えき" "駅" "noun" .noun 900, raw "なかの" "中野" "surname" .properNoun 800,
    raw "なかの" "仲野" "alt kanji" .properNoun 1200, raw "なかの" "なかの" "hiragana" .noun 1500,
    raw "なかの" "ナカノ" "katakana" .noun 1600, raw "なかの" "中埜" "rare kanji" .properNoun 2200,
    raw "さかむら" "坂村" "surname" .properNoun 800, raw "さかむら" "酒村" "alt kanji" .properNoun 2500,
    raw "けん" "健" "given name" .properNoun 900, raw "けん" "研" "research" .noun 1500,
    raw "けん" "県" "prefecture" .noun 1400, raw "けん" "件" "matter" .noun 1400,
    raw "とろん" "TRON" "tech" .noun 600, raw "びーとろん" "B-TRON" "system" .noun 500,
    raw "てぃーかーねる" "T-Kernel" "kernel" .noun 500, raw "もずく" "Mozc" "engine" .noun 600,
    raw "じっしん" "実身" "Real Body" .noun 800, raw "かしん" "仮身" "Virtual Body" .noun 800,
    raw "ほとけ" "仏" "buddha" .noun 900, raw "ほとけ" "ほとけ" "hiragana" .noun 1300,
    raw "ほとけさん" "仏さん" "buddha polite" .noun 800, raw "ほとけさん" "ほとけさん" "hiragana" .noun 1200,
    raw "ほとけさま" "仏様" "buddha honorific" .noun 850, raw "さん" "さん" "suffix/honorific" .suffix 400,
    raw "さま" "様" "suffix/honorific" .suffix 400, raw "いく" "行く" "verb" .verb 900,
    raw "くる" "来る" "verb" .verb 900, raw "たべる" "食べる" "verb" .verb 900,
    raw "のむ" "飲む" "verb" .verb 950, raw "みる" "見る" "verb" .verb 900,
    raw "きく" "聞く" "verb" .verb 950, raw "はなす" "話す" "verb" .verb 950,
    raw "かく" "書く" "verb" .verb 950, raw "よむ" "読む" "verb" .verb 950,
    raw "する" "する" "verb" .verb 700, raw "いい" "良い" "adjective" .adjective 900,
    raw "よい" "良い" "adjective" .adjective 900, raw "わるい" "悪い" "adjective" .adjective 1000,
    raw "おおきい" "大きい" "adjective" .adjective 950, raw "ちいさい" "小さい" "adjective" .adjective 950,
    raw "あたらしい" "新しい" "adjective" .adjective 950, raw "ふるい" "古い" "adjective" .adjective 1000,
    raw "たかい" "高い" "adjective" .adjective 950, raw "やすい" "安い" "adjective" .adjective 950,
    raw "こんにちは" "こんにちは" "greeting" .noun 700, raw "おはよう" "おはよう" "greeting" .noun 700,
    raw "こんばんは" "こんばんは" "greeting" .noun 700, raw "ありがとう" "ありがとう" "greeting" .noun 700]

-- g_pos_transition_costs
def posTransitionCosts : List (List Nat) :=
  [[0, 200, 200, 400, 300, 9999, 9999, 500, 800, 9999],
    [9999, 300, 400, 350, 400, 100, 200, 400, 600, 400],
    [9999, 300, 400, 350, 400, 100, 200, 400, 600, 400],
    [9999, 400, 500, 600, 600, 300, 150, 300, 500, 200],
    [9999, 200, 300, 500, 500, 300, 200, 400, 500, 200],
    [9999, 200, 200, 200, 250, 300, 250, 400, 600, 500],
    [9999, 600, 700, 700, 800, 400, 300, 600, 400, 100],
    [9999, 300, 400, 400, 400, 200, 300, 500, 600, 300],
    [9999, 300, 300, 400, 400, 400, 500, 500, 500, 200],
    [0, 9999, 9999, 9999, 9999, 9999, 9999, 9999, 9999, 0]]

theorem systemDictionary_words : ∀ e ∈ systemDictionary,
    e.cost ≤ 3500 ∧ e.reading.length < 63 ∧ e.value.length < 63 ∧ 0 ∉ e.value := by
  simp only [systemDictionary, raw, lit_eq]
  decide +kernel

end BTron.Mozc

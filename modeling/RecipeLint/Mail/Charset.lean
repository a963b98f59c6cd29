import RecipeLint.Mail.Coding

/-!
# Character sets of encoded words

An encoded word names the character set of its octets.  The names come in many spellings, which
agree up to case and up to the characters that separate their letters and digits.
-/

namespace RecipeLint.Mail

structure Charset where
  titles : List String
  aliases : List String
  coding : Coding
deriving DecidableEq, Repr

namespace Charset

def universal : List Charset :=
  [ { titles := ["utf_8"]
      aliases := ["u8", "utf", "utf8", "utf8_ucs2", "utf8_ucs4", "cp65001"]
      coding := .utf8 false },
    { titles := ["utf_8_sig"], aliases := [], coding := .utf8 true },
    { titles := ["utf_16"], aliases := ["u16", "utf16"], coding := .wide 2 none },
    { titles := ["utf_16_le"]
      aliases := ["unicodelittleunmarked", "utf_16le"]
      coding := .wide 2 (some true) },
    { titles := ["utf_16_be"]
      aliases := ["unicodebigunmarked", "utf_16be"]
      coding := .wide 2 (some false) },
    { titles := ["utf_32"], aliases := ["u32", "utf32"], coding := .wide 4 none },
    { titles := ["utf_32_le"], aliases := ["utf_32le"], coding := .wide 4 (some true) },
    { titles := ["utf_32_be"], aliases := ["utf_32be"], coding := .wide 4 (some false) }]

def pages : List Charset :=
  [ { titles := ["ascii"]
      aliases := ["646", "ansi_x3.4_1968", "ansi_x3_4_1968", "ansi_x3.4_1986", "cp367", "csascii",
        "ibm367", "iso646_us", "iso_646.irv_1991", "iso_ir_6", "us", "us_ascii"]
      coding := .page .ascii },
    { titles := ["latin_1"]
      aliases := ["8859", "cp819", "csisolatin1", "ibm819", "iso8859", "iso8859_1", "iso_8859_1",
        "iso_8859_1_1987", "iso_ir_100", "l1", "latin", "latin1"]
      coding := .page .iso1 },
    { titles := ["iso8859_2"]
      aliases := ["csisolatin2", "iso_8859_2", "iso_8859_2_1987", "iso_ir_101", "l2", "latin2"]
      coding := .page .iso2 },
    { titles := ["iso8859_3"]
      aliases := ["csisolatin3", "iso_8859_3", "iso_8859_3_1988", "iso_ir_109", "l3", "latin3"]
      coding := .page .iso3 },
    { titles := ["iso8859_4"]
      aliases := ["csisolatin4", "iso_8859_4", "iso_8859_4_1988", "iso_ir_110", "l4", "latin4"]
      coding := .page .iso4 },
    { titles := ["iso8859_5"]
      aliases := ["csisolatincyrillic", "cyrillic", "iso_8859_5", "iso_8859_5_1988", "iso_ir_144"]
      coding := .page .iso5 },
    { titles := ["iso8859_6"]
      aliases := ["arabic", "asmo_708", "csisolatinarabic", "ecma_114", "iso_8859_6",
        "iso_8859_6_1987", "iso_ir_127"]
      coding := .page .iso6 },
    { titles := ["iso8859_7"]
      aliases := ["csisolatingreek", "ecma_118", "elot_928", "greek", "greek8", "iso_8859_7",
        "iso_8859_7_1987", "iso_ir_126"]
      coding := .page .iso7 },
    { titles := ["iso8859_8"]
      aliases := ["csisolatinhebrew", "hebrew", "iso_8859_8", "iso_8859_8_1988", "iso_ir_138"]
      coding := .page .iso8 },
    { titles := ["iso8859_9"]
      aliases := ["csisolatin5", "iso_8859_9", "iso_8859_9_1989", "iso_ir_148", "l5", "latin5"]
      coding := .page .iso9 },
    { titles := ["iso8859_10"]
      aliases := ["csisolatin6", "iso_8859_10", "iso_8859_10_1992", "iso_ir_157", "l6", "latin6"]
      coding := .page .iso10 },
    { titles := ["iso8859_11"]
      aliases := ["thai", "iso_8859_11", "iso_8859_11_2001"]
      coding := .page .iso11 },
    { titles := ["iso8859_13"]
      aliases := ["iso_8859_13", "l7", "latin7"]
      coding := .page .iso13 },
    { titles := ["iso8859_14"]
      aliases := ["iso_8859_14", "iso_8859_14_1998", "iso_celtic", "iso_ir_199", "l8", "latin8"]
      coding := .page .iso14 },
    { titles := ["iso8859_15"]
      aliases := ["iso_8859_15", "l9", "latin9"]
      coding := .page .iso15 },
    { titles := ["iso8859_16"]
      aliases := ["iso_8859_16", "iso_8859_16_2001", "iso_ir_226", "l10", "latin10"]
      coding := .page .iso16 },
    { titles := ["cp1250"], aliases := ["1250", "windows_1250"], coding := .page .windows1250 },
    { titles := ["cp1251"], aliases := ["1251", "windows_1251"], coding := .page .windows1251 },
    { titles := ["cp1252"], aliases := ["1252", "windows_1252"], coding := .page .windows1252 },
    { titles := ["cp1253"], aliases := ["1253", "windows_1253"], coding := .page .windows1253 },
    { titles := ["cp1254"], aliases := ["1254", "windows_1254"], coding := .page .windows1254 },
    { titles := ["cp1255"], aliases := ["1255", "windows_1255"], coding := .page .windows1255 },
    { titles := ["cp1256"], aliases := ["1256", "windows_1256"], coding := .page .windows1256 },
    { titles := ["cp1257"], aliases := ["1257", "windows_1257"], coding := .page .windows1257 },
    { titles := ["cp1258"], aliases := ["1258", "windows_1258"], coding := .page .windows1258 },
    { titles := ["koi8_r"], aliases := ["cskoi8r"], coding := .page .koi8Russian },
    { titles := ["koi8_u"], aliases := [], coding := .page .koi8Ukrainian }]

/-- Further character sets that extend ASCII, of which only the octets of ASCII are read. -/
def partly : Charset where
  titles :=
    ["cp1006", "cp1125", "cp437", "cp720", "cp737", "cp775", "cp850", "cp852", "cp855", "cp856",
      "cp857", "cp858", "cp860", "cp861", "cp862", "cp863", "cp865", "cp866", "cp869", "cp874",
      "hp_roman8", "koi8_t", "kz1048", "mac_arabic", "mac_croatian", "mac_cyrillic", "mac_farsi",
      "mac_greek", "mac_iceland", "mac_latin2", "mac_roman", "mac_romanian", "mac_turkish",
      "palmos", "ptcp154", "tis_620", "big5", "big5hkscs", "cp932", "cp949", "cp950",
      "euc_jis_2004", "euc_jisx0213", "euc_jp", "euc_kr", "gb18030", "gb2312", "gbk", "iso2022_jp",
      "iso2022_jp_1", "iso2022_jp_2", "iso2022_jp_2004", "iso2022_jp_3", "iso2022_jp_ext",
      "iso2022_kr", "johab", "shift_jis"]
  aliases :=
    ["1125", "ibm1125", "cp866u", "ruscii", "437", "cspc8codepage437", "ibm437", "775",
      "cspc775baltic", "ibm775", "850", "cspc850multilingual", "ibm850", "852", "cspcp852",
      "ibm852", "855", "csibm855", "ibm855", "857", "csibm857", "ibm857", "858", "csibm858",
      "ibm858", "860", "csibm860", "ibm860", "861", "cp_is", "csibm861", "ibm861", "862",
      "cspc862latinhebrew", "ibm862", "863", "csibm863", "ibm863", "865", "csibm865", "ibm865",
      "866", "csibm866", "ibm866", "869", "cp_gr", "csibm869", "ibm869", "roman8", "r8", "cp1051",
      "ibm1051", "kz_1048", "rk1048", "strk1048_2002", "maccyrillic", "macgreek", "maciceland",
      "maccentraleurope", "mac_centeuro", "maclatin2", "macintosh", "macroman", "macturkish",
      "csptcp154", "pt154", "cp154", "cyrillic_asian", "tis620", "tis_620_0", "tis_620_2529_0",
      "tis_620_2529_1", "iso_ir_166", "big5_tw", "csbig5", "x_mac_trad_chinese", "big5_hkscs",
      "hkscs", "932", "ms932", "mskanji", "ms_kanji", "949", "ms949", "uhc", "950", "ms950",
      "jisx0213", "eucjis2004", "euc_jis2004", "eucjisx0213", "eucjp", "ujis", "u_jis", "euckr",
      "korean", "ksc5601", "ks_c_5601", "ks_c_5601_1987", "ksx1001", "ks_x_1001", "x_mac_korean",
      "gb18030_2000", "chinese", "csiso58gb231280", "euc_cn", "euccn", "eucgb2312_cn",
      "gb2312_1980", "gb2312_80", "iso_ir_58", "x_mac_simp_chinese", "936", "cp936", "ms936",
      "csiso2022jp", "iso2022jp", "iso_2022_jp", "iso2022jp_1", "iso_2022_jp_1", "iso2022jp_2",
      "iso_2022_jp_2", "iso_2022_jp_2004", "iso2022jp_2004", "iso2022jp_3", "iso_2022_jp_3",
      "iso2022jp_ext", "iso_2022_jp_ext", "csiso2022kr", "iso2022kr", "iso_2022_kr", "cp1361",
      "ms1361", "csshiftjis", "shiftjis", "sjis", "s_jis", "x_mac_japanese"]
  coding := .page .ascii

def all : List Charset :=
  universal ++ pages ++ [partly]

def isNamePart (c : Char) : Bool :=
  c.isAlphanum || c = '.'

/-- A name in lower case, with an underscore in the place of each run of characters that separates
two parts; `separated` says whether such a run stands in front. -/
def joined (separated : Bool) : List Char → List Char
  | [] => []
  | c :: rest =>
      if isNamePart c then
        if separated then '_' :: c.toLower :: joined false rest else c.toLower :: joined false rest
      else
        joined true rest

def spelling (name : List Char) : List Char :=
  joined false (name.dropWhile fun c => !isNamePart c)

/-- The character set with another name than its proper ones. -/
def ofAlias? (spelling : List Char) : Option Charset :=
  all.find? (·.aliases.contains (String.ofList spelling))

/-- The character set of a name.  In names that are not proper, dots may stand for underscores. -/
def of? (name : List Char) : Option Charset :=
  let spelling := spelling name
  let dotless := spelling.map fun c => if c = '.' then '_' else c
  ((ofAlias? spelling).or (ofAlias? dotless)).or
    (all.find? (·.titles.contains (String.ofList spelling)))

/-- Whether a name says that the character set is not known. -/
def isUnnamed (name : List Char) : Bool :=
  name.map Char.toLower = "unknown-8bit".toList

end Charset
end RecipeLint.Mail

/-!
# Code pages

A code page extends ASCII by characters for the octets from 0x80 up.
-/

namespace RecipeLint.Mail

/-- The characters that octets from 0x80 up stand for, in the order of the octets.  The replacement
character is in the place of an octet that stands for none. -/
abbrev CodePage := List Char

namespace CodePage

def char? (page : CodePage) (octet : UInt8) : Option Char :=
  if octet < 0x80 then some (Char.ofNat octet.toNat)
  else page[octet.toNat - 0x80]?.filter (· ≠ '\ufffd')

/-- The code page of runs of consecutive code points, each given by its first one and its length.  A
run that starts with zero consists of octets without a character. -/
def ofRuns (runs : List (Nat × Nat)) : CodePage :=
  runs.flatMap fun (first, length) =>
    if first = 0 then .replicate length '\ufffd' else (List.range' first length).map Char.ofNat

def ofRows (rows : List String) : CodePage :=
  rows.flatMap String.toList

/-- The characters that the first 32 octets stand for on the pages of ISO 8859. -/
def controls : CodePage :=
  .ofRuns [(0x80, 32)]

/-- ASCII, which has no characters beyond its own. -/
def ascii : CodePage :=
  []

/-- ISO 8859-1, in which every octet stands for the code point of its number. -/
def iso1 : CodePage :=
  .ofRuns [(0x80, 128)]

/-- ISO 8859-2, Latin letters of central Europe. -/
def iso2 : CodePage :=
  controls ++ .ofRows ["\u00a0Ą˘Ł¤ĽŚ§¨ŠŞŤŹ\u00adŽŻ°ą˛ł´ľśˇ¸šşťź˝žż",
    "ŔÁÂĂÄĹĆÇČÉĘËĚÍÎĎĐŃŇÓÔŐÖ×ŘŮÚŰÜÝŢßŕáâăäĺćçčéęëěíîďđńňóôőö÷řůúűüýţ˙"]

/-- ISO 8859-3, Latin letters of southern Europe. -/
def iso3 : CodePage :=
  controls ++ .ofRows ["\u00a0Ħ˘£¤�Ĥ§¨İŞĞĴ\u00ad�Ż°ħ²³´µĥ·¸ışğĵ½�ż",
    "ÀÁÂ�ÄĊĈÇÈÉÊËÌÍÎÏ�ÑÒÓÔĠÖ×ĜÙÚÛÜŬŜßàáâ�äċĉçèéêëìíîï�ñòóôġö÷ĝùúûüŭŝ˙"]

/-- ISO 8859-4, Latin letters of northern Europe. -/
def iso4 : CodePage :=
  controls ++ .ofRows ["\u00a0ĄĸŖ¤ĨĻ§¨ŠĒĢŦ\u00adŽ¯°ą˛ŗ´ĩļˇ¸šēģŧŊžŋ",
    "ĀÁÂÃÄÅÆĮČÉĘËĖÍÎĪĐŅŌĶÔÕÖ×ØŲÚÛÜŨŪßāáâãäåæįčéęëėíîīđņōķôõö÷øųúûüũū˙"]

/-- ISO 8859-5, Cyrillic letters. -/
def iso5 : CodePage :=
  .ofRuns [(0x80, 33), (0x401, 12), (0xad, 1), (0x40e, 66), (0x2116, 1), (0x451, 12), (0xa7, 1),
    (0x45e, 2)]

/-- ISO 8859-6, Arabic letters. -/
def iso6 : CodePage :=
  .ofRuns [(0x80, 33), (0, 3), (0xa4, 1), (0, 7), (0x60c, 1), (0xad, 1), (0, 13), (0x61b, 1),
    (0, 3), (0x61f, 1), (0, 1), (0x621, 26), (0, 5), (0x640, 19), (0, 13)]

/-- ISO 8859-7, Greek letters. -/
def iso7 : CodePage :=
  .ofRuns [(0x80, 33), (0x2018, 2), (0xa3, 1), (0x20ac, 1), (0x20af, 1), (0xa6, 4), (0x37a, 1),
    (0xab, 3), (0, 1), (0x2015, 1), (0xb0, 4), (0x384, 3), (0xb7, 1), (0x388, 3), (0xbb, 1),
    (0x38c, 1), (0xbd, 1), (0x38e, 20), (0, 1), (0x3a3, 44), (0, 1)]

/-- ISO 8859-8, Hebrew letters. -/
def iso8 : CodePage :=
  .ofRuns [(0x80, 33), (0, 1), (0xa2, 8), (0xd7, 1), (0xab, 15), (0xf7, 1), (0xbb, 4), (0, 32),
    (0x2017, 1), (0x5d0, 27), (0, 2), (0x200e, 2), (0, 1)]

/-- ISO 8859-9, Latin letters with those of Turkish. -/
def iso9 : CodePage :=
  .ofRuns [(0x80, 80), (0x11e, 1), (0xd1, 12), (0x130, 1), (0x15e, 1), (0xdf, 17), (0x11f, 1),
    (0xf1, 12), (0x131, 1), (0x15f, 1), (0xff, 1)]

/-- ISO 8859-10, Latin letters of the Nordic languages. -/
def iso10 : CodePage :=
  controls ++ .ofRows ["\u00a0ĄĒĢĪĨĶ§ĻĐŠŦŽ\u00adŪŊ°ąēģīĩķ·ļđšŧž―ūŋ",
    "ĀÁÂÃÄÅÆĮČÉĘËĖÍÎÏÐŅŌÓÔÕÖŨØŲÚÛÜÝÞßāáâãäåæįčéęëėíîïðņōóôõöũøųúûüýþĸ"]

/-- ISO 8859-11, Thai letters. -/
def iso11 : CodePage :=
  .ofRuns [(0x80, 33), (0xe01, 58), (0, 4), (0xe3f, 29), (0, 4)]

/-- ISO 8859-13, Latin letters of the Baltic languages. -/
def iso13 : CodePage :=
  controls ++ .ofRows ["\u00a0”¢£¤„¦§Ø©Ŗ«¬\u00ad®Æ°±²³“µ¶·ø¹ŗ»¼½¾æ",
    "ĄĮĀĆÄÅĘĒČÉŹĖĢĶĪĻŠŃŅÓŌÕÖ×ŲŁŚŪÜŻŽßąįāćäåęēčéźėģķīļšńņóōõö÷ųłśūüżž’"]

/-- ISO 8859-14, Latin letters of the Celtic languages. -/
def iso14 : CodePage :=
  controls ++ .ofRows ["\u00a0Ḃḃ£ĊċḊ§Ẁ©ẂḋỲ\u00ad®ŸḞḟĠġṀṁ¶ṖẁṗẃṠỳẄẅṡ",
    "ÀÁÂÃÄÅÆÇÈÉÊËÌÍÎÏŴÑÒÓÔÕÖṪØÙÚÛÜÝŶßàáâãäåæçèéêëìíîïŵñòóôõöṫøùúûüýŷÿ"]

/-- ISO 8859-15, Latin letters of western Europe with the euro sign. -/
def iso15 : CodePage :=
  .ofRuns [(0x80, 36), (0x20ac, 1), (0xa5, 1), (0x160, 1), (0xa7, 1), (0x161, 1), (0xa9, 11),
    (0x17d, 1), (0xb5, 3), (0x17e, 1), (0xb9, 3), (0x152, 2), (0x178, 1), (0xbf, 65)]

/-- ISO 8859-16, Latin letters of south-eastern Europe. -/
def iso16 : CodePage :=
  controls ++ .ofRows ["\u00a0ĄąŁ€„Š§š©Ș«Ź\u00adźŻ°±ČłŽ”¶·žčș»ŒœŸż",
    "ÀÁÂĂÄĆÆÇÈÉÊËÌÍÎÏĐŃÒÓÔŐÖŚŰÙÚÛÜĘȚßàáâăäćæçèéêëìíîïđńòóôőöśűùúûüęțÿ"]

def windows1250 : CodePage :=
  .ofRows ["€�‚�„…†‡�‰Š‹ŚŤŽŹ�‘’“”•–—�™š›śťžź",
    "\u00a0ˇ˘Ł¤Ą¦§¨©Ş«¬\u00ad®Ż°±˛ł´µ¶·¸ąş»Ľ˝ľż",
    "ŔÁÂĂÄĹĆÇČÉĘËĚÍÎĎĐŃŇÓÔŐÖ×ŘŮÚŰÜÝŢßŕáâăäĺćçčéęëěíîďđńňóôőö÷řůúűüýţ˙"]

def windows1251 : CodePage :=
  .ofRows ["ЂЃ‚ѓ„…†‡€‰Љ‹ЊЌЋЏђ‘’“”•–—�™љ›њќћџ",
    "\u00a0ЎўЈ¤Ґ¦§Ё©Є«¬\u00ad®Ї°±Ііґµ¶·ё№є»јЅѕї",
    "АБВГДЕЖЗИЙКЛМНОПРСТУФХЦЧШЩЪЫЬЭЮЯабвгдежзийклмнопрстуфхцчшщъыьэюя"]

def windows1252 : CodePage :=
  .ofRows ["€�‚ƒ„…†‡ˆ‰Š‹Œ�Ž��‘’“”•–—˜™š›œ�žŸ",
    "\u00a0¡¢£¤¥¦§¨©ª«¬\u00ad®¯°±²³´µ¶·¸¹º»¼½¾¿",
    "ÀÁÂÃÄÅÆÇÈÉÊËÌÍÎÏÐÑÒÓÔÕÖ×ØÙÚÛÜÝÞßàáâãäåæçèéêëìíîïðñòóôõö÷øùúûüýþÿ"]

def windows1253 : CodePage :=
  .ofRows ["€�‚ƒ„…†‡�‰�‹�����‘’“”•–—�™�›����",
    "\u00a0΅Ά£¤¥¦§¨©�«¬\u00ad®―°±²³΄µ¶·ΈΉΊ»Ό½ΎΏ",
    "ΐΑΒΓΔΕΖΗΘΙΚΛΜΝΞΟΠΡ�ΣΤΥΦΧΨΩΪΫάέήίΰαβγδεζηθικλμνξοπρςστυφχψωϊϋόύώ�"]

def windows1254 : CodePage :=
  .ofRows ["€�‚ƒ„…†‡ˆ‰Š‹Œ����‘’“”•–—˜™š›œ��Ÿ",
    "\u00a0¡¢£¤¥¦§¨©ª«¬\u00ad®¯°±²³´µ¶·¸¹º»¼½¾¿",
    "ÀÁÂÃÄÅÆÇÈÉÊËÌÍÎÏĞÑÒÓÔÕÖ×ØÙÚÛÜİŞßàáâãäåæçèéêëìíîïğñòóôõö÷øùúûüışÿ"]

def windows1255 : CodePage :=
  .ofRuns [(0x20ac, 1), (0, 1), (0x201a, 1), (0x192, 1), (0x201e, 1), (0x2026, 1), (0x2020, 2),
    (0x2c6, 1), (0x2030, 1), (0, 1), (0x2039, 1), (0, 5), (0x2018, 2), (0x201c, 2), (0x2022, 1),
    (0x2013, 2), (0x2dc, 1), (0x2122, 1), (0, 1), (0x203a, 1), (0, 4), (0xa0, 4), (0x20aa, 1),
    (0xa5, 5), (0xd7, 1), (0xab, 15), (0xf7, 1), (0xbb, 5), (0x5b0, 10), (0, 1), (0x5bb, 9),
    (0x5f0, 5), (0, 7), (0x5d0, 27), (0, 2), (0x200e, 2), (0, 1)]

def windows1256 : CodePage :=
  .ofRuns [(0x20ac, 1), (0x67e, 1), (0x201a, 1), (0x192, 1), (0x201e, 1), (0x2026, 1), (0x2020, 2),
    (0x2c6, 1), (0x2030, 1), (0x679, 1), (0x2039, 1), (0x152, 1), (0x686, 1), (0x698, 1),
    (0x688, 1), (0x6af, 1), (0x2018, 2), (0x201c, 2), (0x2022, 1), (0x2013, 2), (0x6a9, 1),
    (0x2122, 1), (0x691, 1), (0x203a, 1), (0x153, 1), (0x200c, 2), (0x6ba, 1), (0xa0, 1),
    (0x60c, 1), (0xa2, 8), (0x6be, 1), (0xab, 15), (0x61b, 1), (0xbb, 4), (0x61f, 1), (0x6c1, 1),
    (0x621, 22), (0xd7, 1), (0x637, 4), (0x640, 4), (0xe0, 1), (0x644, 1), (0xe2, 1), (0x645, 4),
    (0xe7, 5), (0x649, 2), (0xee, 2), (0x64b, 4), (0xf4, 1), (0x64f, 2), (0xf7, 1), (0x651, 1),
    (0xf9, 1), (0x652, 1), (0xfb, 2), (0x200e, 2), (0x6d2, 1)]

def windows1257 : CodePage :=
  .ofRows ["€�‚�„…†‡�‰�‹�¨ˇ¸�‘’“”•–—�™�›�¯˛�",
    "\u00a0�¢£¤�¦§Ø©Ŗ«¬\u00ad®Æ°±²³´µ¶·ø¹ŗ»¼½¾æ",
    "ĄĮĀĆÄÅĘĒČÉŹĖĢĶĪĻŠŃŅÓŌÕÖ×ŲŁŚŪÜŻŽßąįāćäåęēčéźėģķīļšńņóōõö÷ųłśūüżž˙"]

def windows1258 : CodePage :=
  .ofRows ["€�‚ƒ„…†‡ˆ‰�‹Œ����‘’“”•–—˜™�›œ��Ÿ",
    "\u00a0¡¢£¤¥¦§¨©ª«¬\u00ad®¯°±²³´µ¶·¸¹º»¼½¾¿",
    "ÀÁÂĂÄÅÆÇÈÉÊË\u0300ÍÎÏĐÑ\u0309ÓÔƠÖ×ØÙÚÛÜƯ\u0303ß",
    "àáâăäåæçèéêë\u0301íîïđñ\u0323óôơö÷øùúûüư₫ÿ"]

/-- KOI8-R, Russian letters. -/
def koi8Russian : CodePage :=
  .ofRows ["─│┌┐└┘├┤┬┴┼▀▄█▌▐░▒▓⌠■∙√≈≤≥\u00a0⌡°²·÷",
    "═║╒ё╓╔╕╖╗╘╙╚╛╜╝╞╟╠╡Ё╢╣╤╥╦╧╨╩╪╫╬©",
    "юабцдефгхийклмнопярстужвьызшэщчъЮАБЦДЕФГХИЙКЛМНОПЯРСТУЖВЬЫЗШЭЩЧЪ"]

/-- KOI8-U, Ukrainian letters. -/
def koi8Ukrainian : CodePage :=
  .ofRows ["─│┌┐└┘├┤┬┴┼▀▄█▌▐░▒▓⌠■∙√≈≤≥\u00a0⌡°²·÷",
    "═║╒ёє╔ії╗╘╙╚╛ґ╝╞╟╠╡ЁЄ╣ІЇ╦╧╨╩╪Ґ╬©",
    "юабцдефгхийклмнопярстужвьызшэщчъЮАБЦДЕФГХИЙКЛМНОПЯРСТУЖВЬЫЗШЭЩЧЪ"]

end CodePage
end RecipeLint.Mail

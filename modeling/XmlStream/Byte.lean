/-! Bytes and the classes the grammar tells apart. Structure is ASCII only: a byte from 128 up is
content, never part of a name and never blank. -/
namespace XmlStream

abbrev Byte := UInt8
abbrev Bytes := List Byte

def utf8 (text : String) : Bytes := text.toUTF8.data.toList

namespace Byte

abbrev openAngle : Byte := 60
abbrev closeAngle : Byte := 62
abbrev slash : Byte := 47
abbrev exclamation : Byte := 33
abbrev question : Byte := 63
abbrev openBracket : Byte := 91
abbrev upperD : Byte := 68
abbrev dash : Byte := 45
abbrev underscore : Byte := 95
abbrev colon : Byte := 58
abbrev equals : Byte := 61
abbrev quote : Byte := 34
abbrev apostrophe : Byte := 39
abbrev ampersand : Byte := 38
abbrev semicolon : Byte := 59
abbrev hash : Byte := 35

def isLetter (b : Byte) : Bool := (65 ≤ b && b ≤ 90) || (97 ≤ b && b ≤ 122)
def isDigit (b : Byte) : Bool := 48 ≤ b && b ≤ 57
def isJoiner (b : Byte) : Bool := b == dash || b == underscore
def isBlank (b : Byte) : Bool := b == 32 || b == 9 || b == 10 || b == 13

def isNameByte (b : Byte) : Bool := isLetter b || isDigit b || isJoiner b

end Byte
end XmlStream

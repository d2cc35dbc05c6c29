import Httparsed.Pico

/-!
# The grammar of picohttpparser

The messages it is to accept and what it is to store for them, in the words of the other grammar. The
differences: a token may have a `|`, the version is HTTP/1.d, and a response has no empty line in front. Nothing
here mentions the C code but the types of its results and its own token table.
-/

namespace Httparsed.Pico

open Grammar

/-! ## The grammar -/

/-- A header line without its end: `name ':' raw`, or a continuation `raw` that starts with SP or HT. -/
inductive Content where
  | named (name : Word isToken) (raw : Text textByte)
  | continued (raw : Word textByte) (start : ∀ c ∈ raw.bytes.head?, blank c = true)

namespace Content

def bytes : Content → List Byte
  | .named name raw => name.bytes ++ COLON :: raw.bytes
  | .continued raw _ => raw.bytes

def name (p : Nat) : Content → Option Slice
  | .named name _ => some ⟨p, name.bytes⟩
  | .continued _ _ => none

/-- The value before its end is stripped. -/
def rawValue (p : Nat) : Content → Slice
  | .named name raw => Slice.stripLeading blank ⟨p + name.bytes.length + 1, raw.bytes⟩
  | .continued raw _ => ⟨p, raw.bytes⟩

def isNamed : Content → Bool
  | .named _ _ => true
  | .continued _ _ => false

end Content

structure Line where
  content : Content
  eol : Eol

namespace Line

def bytes (l : Line) : List Byte := l.content.bytes ++ l.eol.bytes

/-- What is stored for a line that starts at `p`. -/
def header (p : Nat) (l : Line) : PhrHeader := ⟨l.content.name p, (l.content.rawValue p).stripTrailing⟩

end Line

def linesBytes (ls : List Line) : List Byte := ls.flatMap Line.bytes

@[simp] theorem linesBytes_cons (l : Line) (ls : List Line) : linesBytes (l :: ls) = l.bytes ++ linesBytes ls := rfl

def linesHeaders (p : Nat) : List Line → List PhrHeader
  | [] => []
  | l :: ls => l.header p :: linesHeaders (p + l.bytes.length) ls

/-- `line* EOL`, the first line being no continuation. -/
structure Section where
  lines : List Line
  opens : ∀ l ∈ lines.head?, l.content.isNamed = true
  eol : Eol

def Section.bytes (s : Section) : List Byte := linesBytes s.lines ++ s.eol.bytes

/-- `HTTP/1.` and a digit -/
structure Version where
  minor : Byte
  minor_digit : isDigit minor = true

def Version.bytes (v : Version) : List Byte := ascii "HTTP/1." ++ [v.minor]

/-- `[EOL] method SP+ path SP+ version EOL` and the header lines -/
structure Request where
  lead : Option Eol
  method : Word isToken
  gap₁ : Spaces
  path : Word uriByte
  gap₂ : Spaces
  version : Version
  eol : Eol
  headers : Section

namespace Request

def pathOffset (r : Request) : Nat := (leadBytes r.lead ++ r.method.bytes ++ r.gap₁.bytes).length

def startBytes (r : Request) : List Byte :=
  leadBytes r.lead ++ r.method.bytes ++ r.gap₁.bytes ++ r.path.bytes ++ r.gap₂.bytes ++ r.version.bytes ++ r.eol.bytes

def bytes (r : Request) : List Byte := r.startBytes ++ r.headers.bytes

/-- What is stored for a request that starts at offset 0. -/
def out (r : Request) : PhrRequest where
  method := ⟨(leadBytes r.lead).length, r.method.bytes⟩
  path := ⟨r.pathOffset, r.path.bytes⟩
  minor_version := digit r.version.minor
  headers := linesHeaders r.startBytes.length r.headers.lines

end Request

/-- `version SP+ d₁ d₂ d₃ text EOL` and the header lines, the text being empty or starting with SP -/
structure Response where
  version : Version
  gap : Spaces
  code : Code
  text : Text textByte
  text_start : ∀ c ∈ text.bytes.head?, c = SP
  eol : Eol
  headers : Section

namespace Response

def textOffset (r : Response) : Nat := (r.version.bytes ++ r.gap.bytes ++ r.code.bytes).length

def startBytes (r : Response) : List Byte :=
  r.version.bytes ++ r.gap.bytes ++ r.code.bytes ++ r.text.bytes ++ r.eol.bytes

def bytes (r : Response) : List Byte := r.startBytes ++ r.headers.bytes

def out (r : Response) : PhrResponse where
  minor_version := digit r.version.minor
  status := r.code.value
  msg := Slice.stripLeading (· == SP) ⟨r.textOffset, r.text.bytes⟩
  headers := linesHeaders r.startBytes.length r.headers.lines

end Response

end Httparsed.Pico

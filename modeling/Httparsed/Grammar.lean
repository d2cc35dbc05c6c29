import Httparsed.Machine

/-!
# The grammar of a message head

What the parser is for, in its own words: the heads that are to be accepted and the callbacks that are to be
made for them. Nothing here mentions the parser. A value of one of these types carries the proof that its
bytes are of the right classes, so every one of them is well formed.

`bytes` is the text of a phrase, `events p` the callbacks for a phrase whose text starts at offset `p`.
-/

namespace Httparsed.Grammar

/-- One or more bytes of a class. -/
structure Word (P : Byte → Bool) where
  bytes : List Byte
  nonempty : bytes ≠ []
  all : ∀ c ∈ bytes, P c = true

namespace Word

variable {P : Byte → Bool}

def single (c : Byte) (h : P c = true) : Word P :=
  ⟨[c], List.cons_ne_nil _ _, fun d hd => by rw [List.mem_singleton.1 hd]; exact h⟩

def push (w : Word P) (c : Byte) (h : P c = true) : Word P :=
  ⟨w.bytes ++ [c], by simp, fun d hd => by
    rcases List.mem_append.1 hd with hd | hd
    · exact w.all d hd
    · rw [List.mem_singleton.1 hd]; exact h⟩

@[simp] theorem single_bytes (c : Byte) (h : P c = true) : (single c h).bytes = [c] := rfl

@[simp] theorem push_bytes (w : Word P) (c : Byte) (h : P c = true) : (w.push c h).bytes = w.bytes ++ [c] := rfl

end Word

/-- Zero or more bytes of a class. -/
structure Text (P : Byte → Bool) where
  bytes : List Byte
  all : ∀ c ∈ bytes, P c = true

def Text.push {P : Byte → Bool} (t : Text P) (c : Byte) (h : P c = true) : Text P :=
  ⟨t.bytes ++ [c], fun d hd => by
    rcases List.mem_append.1 hd with hd | hd
    · exact t.all d hd
    · rw [List.mem_singleton.1 hd]; exact h⟩

@[simp] theorem Text.push_bytes {P : Byte → Bool} (t : Text P) (c : Byte) (h : P c = true) :
    (t.push c h).bytes = t.bytes ++ [c] := rfl

abbrev Spaces := Word (· == SP)

def oneSpace : Spaces := Word.single SP rfl

/-- A line end: CRLF or a lone LF. -/
inductive Eol where
  | crlf
  | lf
  deriving DecidableEq, Repr

def Eol.bytes : Eol → List Byte
  | .crlf => [CR, LF]
  | .lf => [LF]

/-- The tolerated empty line in front of a head. -/
def leadBytes : Option Eol → List Byte
  | none => []
  | some eol => eol.bytes

/-! ## Start lines -/

/-- `method SP+ uri SP+ version EOL` -/
structure RequestLine where
  method : Word tokenByte
  gap₁ : Spaces
  uri : Word uriByte
  gap₂ : Spaces
  version : Word versionByte
  eol : Eol

namespace RequestLine

def uriOffset (l : RequestLine) : Nat := (l.method.bytes ++ l.gap₁.bytes).length

def versionOffset (l : RequestLine) : Nat := (l.method.bytes ++ l.gap₁.bytes ++ l.uri.bytes ++ l.gap₂.bytes).length

def bytes (l : RequestLine) : List Byte :=
  l.method.bytes ++ l.gap₁.bytes ++ l.uri.bytes ++ l.gap₂.bytes ++ l.version.bytes ++ l.eol.bytes

def events (p : Nat) (l : RequestLine) : List (Event Slice) :=
  [.onMethod ⟨p, l.method.bytes⟩, .onUri ⟨p + l.uriOffset, l.uri.bytes⟩,
    .onVersion ⟨p + l.versionOffset, l.version.bytes⟩]

end RequestLine

/-- Three ASCII digits. -/
structure Code where
  d₁ : Byte
  d₂ : Byte
  d₃ : Byte
  digit₁ : isDigit d₁ = true
  digit₂ : isDigit d₂ = true
  digit₃ : isDigit d₃ = true

namespace Code

def bytes (c : Code) : List Byte := [c.d₁, c.d₂, c.d₃]

def value (c : Code) : Int := 100 * digit c.d₁ + 10 * digit c.d₂ + digit c.d₃

end Code

/-- `version SP+ d₁ d₂ d₃ text EOL`, the text being empty or starting with SP. -/
structure StatusLine where
  version : Word versionByte
  gap : Spaces
  code : Code
  text : Text textByte
  text_start : ∀ c ∈ text.bytes.head?, c = SP
  eol : Eol

namespace StatusLine

def textOffset (l : StatusLine) : Nat := (l.version.bytes ++ l.gap.bytes ++ l.code.bytes).length

def bytes (l : StatusLine) : List Byte :=
  l.version.bytes ++ l.gap.bytes ++ l.code.bytes ++ l.text.bytes ++ l.eol.bytes

/-- The reason phrase: the text without its leading SPs. -/
def reason (p : Nat) (l : StatusLine) : Slice := Slice.stripLeading (· == SP) ⟨p + l.textOffset, l.text.bytes⟩

def events (p : Nat) (l : StatusLine) : List (Event Slice) :=
  [.onVersion ⟨p, l.version.bytes⟩, .onStatus l.code.value] ++
    if (l.reason p).bytes = [] then [] else [.onStatusMsg (l.reason p)]

end StatusLine

/-! ## Header lines -/

/-- A header line without its end: `name ':' raw`, or a continuation `raw` that starts with SP or HT. -/
inductive Content where
  | named (name : Word tokenByte) (raw : Text textByte)
  | continued (raw : Word textByte) (start : ∀ c ∈ raw.bytes.head?, blank c = true)

namespace Content

def bytes : Content → List Byte
  | .named name raw => name.bytes ++ COLON :: raw.bytes
  | .continued raw _ => raw.bytes

def name (p : Nat) : Content → Option Slice
  | .named name _ => some ⟨p, name.bytes⟩
  | .continued _ _ => none

/-- The value before its end is stripped. -/
def rawValue (p : Nat) : Content → Slice
  | .named name raw => Slice.stripLeading blank ⟨p + name.bytes.length + 1, raw.bytes⟩
  | .continued raw _ => ⟨p, raw.bytes⟩

def isNamed : Content → Bool
  | .named _ _ => true
  | .continued _ _ => false

end Content

structure Line where
  content : Content
  eol : Eol

namespace Line

def bytes (l : Line) : List Byte := l.content.bytes ++ l.eol.bytes

/-- The callback for a line: the value stripped at both ends, of a continuation at its end only. -/
def event (p : Nat) (l : Line) : Event Slice :=
  .onHeader (l.content.name p) (l.content.rawValue p).stripTrailing

end Line

/-- The text of a header section without the empty line that closes it. -/
def linesBytes (ls : List Line) : List Byte := ls.flatMap Line.bytes

def linesEvents (p : Nat) : List Line → List (Event Slice)
  | [] => []
  | l :: ls => l.event p :: linesEvents (p + l.bytes.length) ls

/-- A header section does not begin with a continuation. -/
def Opens (ls : List Line) : Prop := ∀ l ∈ ls.head?, l.content.isNamed = true

/-! ## Heads -/

/-- A kind of start line: its phrases, their text and their callbacks. -/
structure StartSyntax where
  Phrase : Type
  bytes : Phrase → List Byte
  events : Nat → Phrase → List (Event Slice)

def requestSyntax : StartSyntax := ⟨RequestLine, RequestLine.bytes, RequestLine.events⟩

def statusSyntax : StartSyntax := ⟨StatusLine, StatusLine.bytes, StatusLine.events⟩

/-- `[EOL] start-line line* EOL` -/
structure Head (y : StartSyntax) where
  lead : Option Eol
  start : y.Phrase
  lines : List Line
  opens : Opens lines
  eol : Eol

namespace Head

variable {y : StartSyntax}

/-- Where the header lines begin. -/
def bodyOffset (h : Head y) : Nat := (leadBytes h.lead ++ y.bytes h.start).length

def bytes (h : Head y) : List Byte :=
  leadBytes h.lead ++ y.bytes h.start ++ linesBytes h.lines ++ h.eol.bytes

def events (h : Head y) : List (Event Slice) :=
  y.events (leadBytes h.lead).length h.start ++ linesEvents h.bodyOffset h.lines

end Head

end Httparsed.Grammar

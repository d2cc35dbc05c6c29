import Httparsed.Observe

/-!
# picohttpparser, the parser this one follows (bench/extern/picohttpparser/picohttpparser.c)

The C code the benchmark compares with. A pointer is the offset it points to together with the bytes from there
up to `buf_end`, that is, a `Slice`; `return NULL` with `*ret = r` is an early return of `r`. What the
out-parameters hold after such a return is left out.

| here | there |
| --- | --- |
| `checkEof`, `expectChar`, `parseInt`, `advanceToken` | the macros (picohttpparser.c:53-94, :225-242) |
| `scanToken`                 | the loop `parse_token` (:245) and `ADVANCE_TOKEN` have in common |
| `findcharFast`, `getTokenToEol` | :105, :134 |
| `isComplete`                | :197 |
| `parseHttpVersion`, `parseHeaders` | :280, :298 |
| `parseRequest`, `parseResponse` | :355, :429 |
| `phrParseRequest`, `phrParseResponse`, `phrParseHeaders` | :401, :474, :500 |

`-2` is the answer to an incomplete message, `-1` to one that is refused.
-/

namespace Httparsed.Pico

/-! ## Macros -/

/-- `IS_PRINTABLE_ASCII` -/
def isPrintableAscii (c : Byte) : Bool := decide (c - 0x20 < 0x5F)

/-- `CHECK_EOF()` -/
def checkEof (buf : Slice) : Except Stop PUnit := if buf.length = 0 then .error (.ret (-2)) else .ok ⟨⟩

/-- `EXPECT_CHAR_NO_CHECK(ch)` -/
def expectCharNoCheck (ch : Byte) (buf : Slice) : Except Stop Slice := do
  let c ← buf.get 0
  let buf ← buf.sliceFrom 1
  if c ≠ ch then .error (.ret (-1)) else .ok buf

/-- `EXPECT_CHAR(ch)` -/
def expectChar (ch : Byte) (buf : Slice) : Except Stop Slice := do
  checkEof buf
  expectCharNoCheck ch buf

/-- `PARSE_INT(valp_, mul_)` -/
def parseInt (mul : Int) (buf : Slice) : Except Stop (Int × Slice) := do
  let c ← buf.get 0
  if c < 0x30 ∨ 0x39 < c then .error (.ret (-1))
  else do
    let buf ← buf.sliceFrom 1
    .ok (mul * ((c.toNat : Int) - 0x30), buf)

/-- `PARSE_INT_3(valp_)` -/
def parseInt3 (buf : Slice) : Except Stop (Int × Slice) := do
  let (a, buf) ← parseInt 100 buf
  let (b, buf) ← parseInt 10 buf
  let (c, buf) ← parseInt 1 buf
  .ok (a + b + c, buf)

/-- The bytes from `start` up to `buf`, both pointers into one buffer. -/
def upTo (start buf : Slice) : Slice := start.sub 0 (buf.ptr - start.ptr)

/-- `if (*buf == '\015') { ++buf; EXPECT_CHAR('\012'); } else if (*buf == '\012') ++buf; else …`; the last branch
is `none`. -/
def newLine (buf : Slice) : Except Stop (Option Slice) := do
  let c ← buf.get 0
  if c = CR then do
    let buf ← buf.sliceFrom 1
    let buf ← expectChar LF buf
    .ok (some buf)
  else if c = LF then do
    let buf ← buf.sliceFrom 1
    .ok (some buf)
  else .ok none

/-- `do { ++buf; CHECK_EOF(); } while (*buf == ' ');` -/
def skipSpaces : Nat → List Byte → Except Stop Slice
  | _, [] => .error (.fault .range)
  | _, [_] => .error (.ret (-2))
  | p, _ :: c :: cs => if c = SP then skipSpaces (p + 1) (c :: cs) else .ok ⟨p + 1, c :: cs⟩

/-! ## Tokens -/

/-- `findchar_fast`: whether it has found a byte of the ranges, and where it stops. -/
def findcharFast (simd : Simd) (buf : Slice) (ranges : List Byte) : Except Stop (Bool × Slice) :=
  match simd with
  | .unrolled => .ok (false, buf)
  | .sse42 pcmpestri =>
    if 16 ≤ buf.length then do
      -- `& ~15` rounds down to a multiple of 16
      let (found, i) ← sseLoop pcmpestri (padRanges ranges) ranges.length buf (buf.length + 1) (buf.length / 16 * 16) 0
      let buf ← buf.sliceFrom i
      .ok (found, buf)
    else .ok (false, buf)

/-- `while (1)` over the bytes of a token: it ends at `next` and refuses what is `bad`. -/
def scanLoop (next : Byte) (bad : Byte → Bool) : Nat → List Byte → Except Stop Slice
  | _, [] => .error (.fault .range)
  | p, c :: cs =>
    if c = next then .ok ⟨p, c :: cs⟩
    else if bad c = true then .error (.ret (-1))
    else if cs = [] then .error (.ret (-2))
    else scanLoop next bad (p + 1) cs

/-- The token in front of `next`, and where it ends. -/
def scanToken (simd : Simd) (ranges : List Byte) (next : Byte) (bad : Byte → Bool) (start : Slice) :
    Except Stop (Slice × Slice) := do
  let (found, buf) ← findcharFast simd start ranges
  if found = false then checkEof buf
  let buf ← scanLoop next bad buf.ptr buf.bytes
  .ok (upTo start buf, buf)

/-- `token_char_map`, 32 bytes a row -/
def tokenCharMap : List Nat :=
  [0, 0, 0, 0, 0, 0, 0, 0, 0, 0, 0, 0, 0, 0, 0, 0, 0, 0, 0, 0, 0, 0, 0, 0, 0, 0, 0, 0, 0, 0, 0, 0,
   0, 1, 0, 1, 1, 1, 1, 1, 0, 0, 1, 1, 0, 1, 1, 0, 1, 1, 1, 1, 1, 1, 1, 1, 1, 1, 0, 0, 0, 0, 0, 0,
   0, 1, 1, 1, 1, 1, 1, 1, 1, 1, 1, 1, 1, 1, 1, 1, 1, 1, 1, 1, 1, 1, 1, 1, 1, 1, 1, 0, 0, 0, 1, 1,
   1, 1, 1, 1, 1, 1, 1, 1, 1, 1, 1, 1, 1, 1, 1, 1, 1, 1, 1, 1, 1, 1, 1, 1, 1, 1, 1, 0, 1, 0, 1, 0] ++
    List.replicate 128 0

def isToken (c : Byte) : Bool := tokenCharMap[c.toNat]? == some 1

/-- `"\x00 \"\"(),,//:@[]{\xff"`, the ranges of `parse_token` -/
def tokenSSE : List Byte :=
  [0x00, 0x20, 0x22, 0x22, 0x28, 0x29, 0x2C, 0x2C, 0x2F, 0x2F, 0x3A, 0x40, 0x5B, 0x5D, 0x7B, 0xFF]

/-- `parse_token` -/
def parseToken (simd : Simd) (next_char : Byte) (buf : Slice) : Except Stop (Slice × Slice) :=
  scanToken simd tokenSSE next_char (fun c => !isToken c) buf

/-- `ADVANCE_TOKEN(tok, toklen)` -/
def advanceToken (simd : Simd) (buf : Slice) : Except Stop (Slice × Slice) :=
  scanToken simd [0x00, 0x20, 0x7F, 0x7F] SP
    (fun c => !isPrintableAscii c && (decide (c < 0x20) || c == 0x7F)) buf

/-! ## Lines -/

/-- The test behind `NonPrintable:` -/
def isControlChar (c : Byte) : Bool := (decide (c < 0x20) && c != HT) || c == 0x7F

/-- `"\0\010\012\037\177\177"`, the ranges of `get_token_to_eol` -/
def eolSSE : List Byte := [0x00, 0x08, 0x0A, 0x1F, 0x7F, 0x7F]

/-- `while (likely(buf_end - buf >= 8))`; `true` is `goto FOUND_CTL`. -/
def eolUnrolled (buf : Slice) : Nat → Nat → Except Stop (Bool × Nat)
  | 0, _ => .error (.fault .fuel)
  | fuel + 1, i => do
    let left ← sizeSub buf.length i
    if 8 ≤ left then do
      let (nonPrintable, i) ← unrolled8 isPrintableAscii buf 8 i
      if nonPrintable then do
        let c ← buf.get i
        if isControlChar c = true then .ok (true, i) else eolUnrolled buf fuel (i + 1)
      else eolUnrolled buf fuel i
    else .ok (false, i)

/-- The part of `get_token_to_eol` that is compiled in two ways. -/
def eolFast (simd : Simd) (buf : Slice) : Except Stop (Bool × Slice) :=
  match simd with
  | .sse42 _ => findcharFast simd buf eolSSE
  | .unrolled => do
    let (found, i) ← eolUnrolled buf (buf.length + 1) 0
    let buf ← buf.sliceFrom i
    .ok (found, buf)

/-- `for (;; ++buf)` up to a control character -/
def eolLoop : Nat → List Byte → Except Stop Slice
  | _, [] => .error (.ret (-2))
  | p, c :: cs => if !isPrintableAscii c && isControlChar c then .ok ⟨p, c :: cs⟩ else eolLoop (p + 1) cs

/-- `FOUND_CTL:` -/
def foundCtl (token_start buf : Slice) : Except Stop (Slice × Slice) := do
  let c ← buf.get 0
  if c = CR then do
    let buf ← buf.sliceFrom 1
    let buf ← expectChar LF buf
    .ok (token_start.sub 0 (buf.ptr - 2 - token_start.ptr), buf)
  else if c = LF then do
    let buf' ← buf.sliceFrom 1
    .ok (upTo token_start buf, buf')
  else .error (.ret (-1))

/-- `get_token_to_eol` -/
def getTokenToEol (simd : Simd) (buf : Slice) : Except Stop (Slice × Slice) := do
  let (found, ctl) ← eolFast simd buf
  let ctl ← if found then .ok ctl else eolLoop ctl.ptr ctl.bytes
  foundCtl buf ctl

/-! ## Completeness -/

/-- The `while (1)` of `is_complete`, with `ret_cnt` line ends behind each other so far. -/
def completeLoop : Nat → Nat → List Byte → Except Stop Slice
  | _, _, [] => .error (.ret (-2))
  | ret_cnt, p, c :: cs =>
    if c = CR then
      match cs with
      | [] => .error (.ret (-2))
      | d :: ds =>
        if d ≠ LF then .error (.ret (-1))
        else if ret_cnt + 1 = 2 then .ok ⟨p + 2, ds⟩
        else completeLoop (ret_cnt + 1) (p + 2) ds
    else if c = LF then
      if ret_cnt + 1 = 2 then .ok ⟨p + 1, cs⟩ else completeLoop (ret_cnt + 1) (p + 1) cs
    else completeLoop 0 (p + 1) cs

/-- `is_complete` -/
def isComplete (buf : Slice) (last_len : Nat) : Except Stop Slice := do
  let buf ← if last_len < 3 then .ok buf else buf.sliceFrom (last_len - 3)
  completeLoop 0 buf.ptr buf.bytes

/-! ## The version -/

/-- `EXPECT_CHAR_NO_CHECK` of one character after the other -/
def expectChars : List Byte → Slice → Except Stop Slice
  | [], buf => .ok buf
  | ch :: chs, buf => do
    let buf ← expectCharNoCheck ch buf
    expectChars chs buf

/-- `parse_http_version` -/
def parseHttpVersion (buf : Slice) : Except Stop (Int × Slice) :=
  -- "we want at least [HTTP/1.<two chars>] to try to parse"
  if buf.length < 9 then .error (.ret (-2))
  else do
    let buf ← expectChars (ascii "HTTP/1.") buf
    parseInt 1 buf

/-! ## Headers -/

/-- `struct phr_header`; a continuation line has the name `NULL`. -/
structure PhrHeader where
  name : Option Slice
  value : Slice
  deriving DecidableEq, Repr

/-- `for (;; ++buf)` over the SPs and HTs in front of a value -/
def skipBlanks : Nat → List Byte → Except Stop Slice
  | _, [] => .error (.ret (-2))
  | p, c :: cs => if c = SP ∨ c = HT then skipBlanks (p + 1) cs else .ok ⟨p, c :: cs⟩

/-- `for (; value_end != value; --value_end)`: how much of the value is left -/
def trimEnd (value : Slice) : Nat → Except Stop Nat
  | 0 => .ok 0
  | k + 1 => do
    let c ← value.get k
    if c = SP ∨ c = HT then trimEnd value k else .ok (k + 1)

/-- The name of a header and what comes up to its value, or `NULL` and nothing. -/
def headerName (simd : Simd) (num_headers : Nat) (buf : Slice) : Except Stop (Option Slice × Slice) := do
  let c ← buf.get 0
  if ¬ (num_headers ≠ 0 ∧ (c = SP ∨ c = HT)) then do
    let (name, buf) ← parseToken simd COLON buf
    if name.length = 0 then .error (.ret (-1))
    else do
      let buf ← buf.sliceFrom 1
      let buf ← skipBlanks buf.ptr buf.bytes
      .ok (some name, buf)
  else .ok (none, buf)

/-- One header of `parse_headers` -/
def parseHeader (simd : Simd) (num_headers : Nat) (buf : Slice) : Except Stop (PhrHeader × Slice) := do
  let (name, buf) ← headerName simd num_headers buf
  let (value, buf) ← getTokenToEol simd buf
  let value_len ← trimEnd value value.length
  .ok (⟨name, value.sub 0 value_len⟩, buf)

/-- `parse_headers`, with the headers so far -/
def parseHeaders (simd : Simd) (max_headers : Nat) : Nat → List PhrHeader → Slice → Except Stop (List PhrHeader × Slice)
  | 0, _, _ => .error (.fault .fuel)
  | fuel + 1, headers, buf => do
    checkEof buf
    match ← newLine buf with
    | some buf => .ok (headers, buf)
    | none =>
      if headers.length = max_headers then .error (.ret (-1))
      else do
        let (header, buf) ← parseHeader simd headers.length buf
        parseHeaders simd max_headers fuel (headers ++ [header]) buf

/-! ## Messages -/

structure PhrRequest where
  method : Slice
  path : Slice
  minor_version : Int
  headers : List PhrHeader
  deriving DecidableEq, Repr

structure PhrResponse where
  minor_version : Int
  status : Int
  msg : Slice
  headers : List PhrHeader
  deriving DecidableEq, Repr

/-- `parse_request` -/
def parseRequest (simd : Simd) (max_headers : Nat) (buf : Slice) : Except Stop (PhrRequest × Slice) := do
  -- "skip first empty line (some clients add CRLF after POST content)"
  checkEof buf
  let lead ← newLine buf
  let (method, buf) ← parseToken simd SP (lead.getD buf)
  let buf ← skipSpaces buf.ptr buf.bytes
  let (path, buf) ← advanceToken simd buf
  let buf ← skipSpaces buf.ptr buf.bytes
  if method.length = 0 ∨ path.length = 0 then .error (.ret (-1))
  else do
    let (minor_version, buf) ← parseHttpVersion buf
    match ← newLine buf with
    | none => .error (.ret (-1))
    | some buf => do
      let (headers, buf) ← parseHeaders simd max_headers (max_headers + 1) [] buf
      .ok (⟨method, path, minor_version, headers⟩, buf)

/-- `do { ++*msg; --*msg_len; } while (**msg == ' ');` -/
def stripMsg : Nat → List Byte → Nat → Except Stop Slice
  | _, [], _ => .error (.fault .range)
  | _, [_], _ => .error (.fault .range)
  | p, _ :: c :: cs, msg_len => do
    let msg_len ← sizeSub msg_len 1
    if c = SP then stripMsg (p + 1) (c :: cs) msg_len else .ok ⟨p + 1, (c :: cs).take msg_len⟩

/-- The message without the SPs in front of it; "garbage found after status code" is refused. -/
def trimMsg (start msg : Slice) : Except Stop Slice :=
  if msg.length = 0 then .ok msg
  else do
    let c ← msg.get 0
    if c = SP then stripMsg start.ptr start.bytes msg.length else .error (.ret (-1))

/-- `parse_response` -/
def parseResponse (simd : Simd) (max_headers : Nat) (buf : Slice) : Except Stop (PhrResponse × Slice) := do
  let (minor_version, buf) ← parseHttpVersion buf
  let c ← buf.get 0
  if c ≠ SP then .error (.ret (-1))
  else do
    let buf ← skipSpaces buf.ptr buf.bytes
    -- "we want at least [:digit:][:digit:][:digit:]<other char> to try to parse"
    if buf.length < 4 then .error (.ret (-2))
    else do
      let (status, start) ← parseInt3 buf
      let (msg, buf) ← getTokenToEol simd start
      let msg ← trimMsg start msg
      let (headers, buf) ← parseHeaders simd max_headers (max_headers + 1) [] buf
      .ok (⟨minor_version, status, msg, headers⟩, buf)

/-! ## The entry points -/

/-- What the three have in common: the check against `last_len`, and `(int)(buf - buf_start)`. -/
def phrParse {α : Type} (parse : Slice → Except Stop (α × Slice)) (buf : List Byte) (last_len : Nat) :
    Except Fault (Int × Option α) :=
  let body : Except Stop (α × Slice) := do
    if last_len ≠ 0 then
      let _ ← isComplete ⟨0, buf⟩ last_len
    parse ⟨0, buf⟩
  match body with
  | .ok (out, buf) => .ok (Ints.d.wrap buf.ptr, some out)
  | .error (.ret r) => .ok (r, none)
  | .error (.fault f) => .error f

/-- `phr_parse_request` -/
def phrParseRequest (simd : Simd) (max_headers : Nat) (buf : List Byte) (last_len : Nat) :
    Except Fault (Int × Option PhrRequest) :=
  phrParse (parseRequest simd max_headers) buf last_len

/-- `phr_parse_response` -/
def phrParseResponse (simd : Simd) (max_headers : Nat) (buf : List Byte) (last_len : Nat) :
    Except Fault (Int × Option PhrResponse) :=
  phrParse (parseResponse simd max_headers) buf last_len

/-- `phr_parse_headers` -/
def phrParseHeaders (simd : Simd) (max_headers : Nat) (buf : List Byte) (last_len : Nat) :
    Except Fault (Int × Option (List PhrHeader)) :=
  phrParse (parseHeaders simd max_headers (max_headers + 1) []) buf last_len

end Httparsed.Pico

import Httparsed.ParseToken

/-!
# The parser: `parse`, `parseHeaders`, `parseRequestLine`, `parseStatusLine` (httparsed.d:97-472)

| here | there |
| --- | --- |
| `advanceNewline`, `skipSpaces`       | the two mixins (httparsed.d:450, :463) |
| `parseRequestLine`                   | httparsed.d:225, one definition for each of its three sections |
| `parseStatusLine`                    | httparsed.d:280, likewise |
| `parseHeaderLine`, `parseHeaders`    | one turn of the `while (true)` loop of httparsed.d:151, and the loop |
| `parse`, `parseRequest`, `parseResponse` | httparsed.d:117, :53, :81 |

A `ref` parameter is returned: the index with the code, the buffer of `parseHeaders` in every case, the
buffer of a start line only on success (`parse` drops it otherwise), `lastPos` in every case.
-/

namespace Httparsed

/-! ## Ranges and template arguments -/

/-- `"\0 \"\"(),,//:@[]{}\x7f\xff"` (httparsed.d:110) -/
def tokenRanges : List Byte :=
  [0x00, 0x20, 0x22, 0x22, 0x28, 0x29, 0x2C, 0x2C, 0x2F, 0x2F, 0x3A, 0x40, 0x5B, 0x5D, 0x7B, 0x7D, 0x7F, 0xFF]

/-- `"\0 \"\"(),,//:@[]{\xff"` (httparsed.d:111) -/
def tokenSSERanges : List Byte :=
  [0x00, 0x20, 0x22, 0x22, 0x28, 0x29, 0x2C, 0x2C, 0x2F, 0x2F, 0x3A, 0x40, 0x5B, 0x5D, 0x7B, 0xFF]

/-- ``"\0-:@[`{\xff"`` (httparsed.d:113) -/
def versionRanges : List Byte := [0x00, 0x2D, 0x3A, 0x40, 0x5B, 0x60, 0x7B, 0xFF]

/-- `"\000\040\177\177"` (httparsed.d:247) -/
def uriRanges : List Byte := [0x00, 0x20, 0x7F, 0x7F]

/-- `"\0\010\012\037\177\177"` (httparsed.d:193, :328) -/
def textRanges : List Byte := [0x00, 0x08, 0x0A, 0x1F, 0x7F, 0x7F]

/-- Outside `tokenRanges`. -/
def tokenByte (c : Byte) : Bool := !inRanges tokenRanges c

/-- 0x21-0x7E and 0x80-0xFF -/
def uriByte (c : Byte) : Bool := (decide (0x21 ≤ c) && decide (c ≤ 0x7E)) || decide (0x80 ≤ c)

/-- `[A-Za-z0-9./]` -/
def versionByte (c : Byte) : Bool :=
  (decide (0x41 ≤ c) && decide (c ≤ 0x5A)) || (decide (0x61 ≤ c) && decide (c ≤ 0x7A)) ||
    (decide (0x30 ≤ c) && decide (c ≤ 0x39)) || decide (c = 0x2E) || decide (c = 0x2F)

/-- HT, 0x20-0x7E and 0x80-0xFF -/
def textByte (c : Byte) : Bool :=
  decide (c = HT) || (decide (0x20 ≤ c) && decide (c ≤ 0x7E)) || decide (0x80 ≤ c)

theorem uriByte_eq : ∀ c : Byte, uriByte c = !inRanges uriRanges c :=
  forall_byte (by decide +kernel)

theorem versionByte_eq : ∀ c : Byte, versionByte c = !inRanges versionRanges c :=
  forall_byte (by decide +kernel)

theorem textByte_eq : ∀ c : Byte, textByte c = !inRanges textRanges c :=
  forall_byte (by decide +kernel)

/-- The SSE ranges for tokens only merge the last two exact ones. -/
theorem tokenSSERanges_cover : ∀ c : Byte, inRanges tokenRanges c = true → inRanges tokenSSERanges c = true :=
  forall_byte (by decide +kernel)

/-- `parseToken!(tokenRanges, next, tokenSSERanges)` for a single next character. -/
def tokenArgs (next : Byte) (h : tokenByte next = false) : TokenArgs where
  ranges := tokenRanges
  next := [next]
  sseRanges := some tokenSSERanges
  even := rfl
  next_ne := by simp
  next_invalid := by
    intro c hc
    rw [List.mem_singleton.1 hc, buildValidCharMap_eq]
    exact h
  sse_le := by decide
  sse_even := rfl
  sse_cover := tokenSSERanges_cover

/-- An instantiation without SSE ranges: the exact ones are used. -/
def plainArgs (ranges next : List Byte) (heven : ranges.length % 2 = 0) (hle : ranges.length ≤ 16)
    (hne : next ≠ []) (h : ∀ c ∈ next, inRanges ranges c = true) : TokenArgs where
  ranges := ranges
  next := next
  sseRanges := none
  even := heven
  next_ne := hne
  next_invalid := fun c hc => by rw [buildValidCharMap_eq, h c hc]; rfl
  sse_le := hle
  sse_even := heven
  sse_cover := fun _ hc => hc

/-- `parseToken!(tokenRanges, ' ', tokenSSERanges)` (httparsed.d:230) -/
def methodArgs : TokenArgs := tokenArgs SP (by decide)

/-- `parseToken!(tokenRanges, ':', tokenSSERanges)` (httparsed.d:176) -/
def headerNameArgs : TokenArgs := tokenArgs COLON (by decide)

/-- `parseToken!("\000\040\177\177", ' ')` (httparsed.d:247) -/
def uriArgs : TokenArgs := plainArgs uriRanges [SP] rfl (by decide) (by simp) (List.all_eq_true.1 (by decide))

/-- `parseToken!(versionRanges, "\r\n")` (httparsed.d:262) -/
def requestVersionArgs : TokenArgs :=
  plainArgs versionRanges [CR, LF] rfl (by decide) (by simp) (List.all_eq_true.1 (by decide))

/-- `parseToken!(versionRanges, ' ')` (httparsed.d:285) -/
def statusVersionArgs : TokenArgs :=
  plainArgs versionRanges [SP] rfl (by decide) (by simp) (List.all_eq_true.1 (by decide))

/-- `parseToken!("\0\010\012\037\177\177", "\r\n")` (httparsed.d:193, :328) -/
def textArgs : TokenArgs := plainArgs textRanges [CR, LF] rfl (by decide) (by simp) (List.all_eq_true.1 (by decide))

/-! ## Mixins and small steps -/

/-- `ret = parseToken!(…)(buffer, i); if (ret < 0) return ret;` -/
def token (simd : Simd) (a : TokenArgs) (buffer : Slice) (i : Nat) : Except Stop Nat := do
  let (ret, i) ← parseToken simd a buffer i
  if ret < 0 then .error (.ret ret) else .ok i

/-- `advanceNewline` (httparsed.d:450) -/
def advanceNewline (buffer : Slice) (i : Nat) : Except Stop Nat :=
  if i < buffer.length then do
    let c ← buffer.get i
    if c = CR then
      if i + 1 = buffer.length then .error (.ret (err .partialData))
      else do
        let d ← buffer.get (i + 1)
        if d ≠ LF then .error (.ret (err .newLine)) else .ok (i + 2)
    else if c = LF then .ok (i + 1)
    else .error (.fault .assertion)
  else .error (.fault .assertion)

/-- `skipSpaces` (httparsed.d:463): the index is moved before the byte is looked at. -/
def skipSpaces (e : ParserError) (buffer : Slice) : Nat → Nat → Except Stop Nat
  | 0, _ => .error (.fault .fuel)
  | fuel + 1, i =>
    if buffer.length = i + 1 then .error (.ret (err .partialData))
    else do
      let c ← buffer.get (i + 1)
      if c = CR ∨ c = LF then .error (.ret (err e))
      else if c = SP then skipSpaces e buffer fuel (i + 1) else .ok (i + 1)

/-! ## `parseRequestLine` (httparsed.d:225) -/

section

variable {σ : Type} (simd : Simd) (h : Handler σ)

/-- The VERSION section, from `start = i`. -/
def requestVersion (buffer : Slice) (start : Nat) : Parser σ Slice := do
  let i ← lift (token simd requestVersionArgs buffer start)
  let ver ← lift (buffer.slice start i)
  h.notify (.onVersion ver)
  let i ← lift (advanceNewline buffer i)
  lift (buffer.sliceFrom i)

/-- The PATH section, from `start = i`. -/
def requestUri (buffer : Slice) (start : Nat) : Parser σ Slice := do
  let i ← lift (token simd uriArgs buffer start)
  let uri ← lift (buffer.slice start i)
  h.notify (.onUri uri)
  let i ← lift (skipSpaces .noVersion buffer (buffer.length + 1) i)
  requestVersion simd h buffer i

/-- The METHOD section comes first. -/
def parseRequestLine (buffer : Slice) : Parser σ Slice := do
  let i ← lift (token simd methodArgs buffer 0)
  if i = 0 then lift (.error (.ret (err .noMethod)))
  else do
    let method ← lift (buffer.slice 0 i)
    h.notify (.onMethod method)
    let i ← lift (skipSpaces .noUri buffer (buffer.length + 1) i)
    requestUri simd h buffer i

/-! ## `parseStatusLine` (httparsed.d:280) -/

/-- `while (buffer[start] == ' ' && start < i) start++;` (httparsed.d:335) -/
def skipLeading (buffer : Slice) (i : Nat) : Nat → Nat → Except Stop Nat
  | 0, _ => .error (.fault .fuel)
  | fuel + 1, start => do
    let c ← buffer.get start
    if c = SP ∧ start < i then skipLeading buffer i fuel (start + 1) else .ok start

/-- The `static if (hasMember "onStatusMsg")` block (httparsed.d:330). -/
def notifyStatusMsg (buffer : Slice) (start i : Nat) : Parser σ PUnit :=
  if h.has .onStatusMsg then
    if start < i then do
      let start ← lift (skipLeading buffer i (buffer.length + 1) start)
      if start < i then do
        let msg ← lift (buffer.slice start i)
        h.notify (.onStatusMsg msg)
      else pure ⟨⟩
    else pure ⟨⟩
  else pure ⟨⟩

/-- The MESSAGE section, from `start = i`. -/
def statusMessage (buffer : Slice) (start : Nat) : Parser σ Slice := do
  let i ← lift (token simd textArgs buffer start)
  notifyStatusMsg h buffer start i
  let i ← lift (advanceNewline buffer i)
  lift (buffer.sliceFrom i)

/-- `foreach (j, m; [100, 10, 1])` (httparsed.d:305) -/
def parseCode (buffer : Slice) (start i : Nat) : List (Nat × Int) → Int → Except Stop Int
  | [], code => .ok code
  | (j, m) :: rest, code => do
    let c ← buffer.get (i + j)
    if c < 0x30 ∨ 0x39 < c then .error (.ret (err .status))
    else do
      let d ← buffer.get (start + j)
      parseCode buffer start i rest (code + ((d.toNat : Int) - 0x30) * m)

/-- The STATUS CODE section, from `start = i`. -/
def statusCode (buffer : Slice) (start : Nat) : Parser σ Slice :=
  if buffer.length ≤ start + 3 then lift (.error (.ret (err .partialData)))
  else do
    let code ← lift (parseCode buffer start start [(0, 100), (1, 10), (2, 1)] 0)
    h.notify (.onStatus code)
    if start + 3 = buffer.length then lift (.error (.ret (err .partialData)))
    else do
      let c ← lift (buffer.get (start + 3))
      if c ≠ SP ∧ c ≠ CR ∧ c ≠ LF then lift (.error (.ret (err .status)))
      else statusMessage simd h buffer (start + 3)

/-- The VERSION section comes first. -/
def parseStatusLine (buffer : Slice) : Parser σ Slice := do
  let i ← lift (token simd statusVersionArgs buffer 0)
  if i = 0 then lift (.error (.ret (err .noVersion)))
  else do
    let ver ← lift (buffer.slice 0 i)
    h.notify (.onVersion ver)
    let i ← lift (skipSpaces .noStatus buffer (buffer.length + 1) i)
    statusCode simd h buffer i

end

/-! ## `parseHeaders` (httparsed.d:151) -/

/-- The parser as compiled: the scanner and the integer types. -/
structure Target where
  simd : Simd
  ints : Ints

/-- `for (; j >= 0; --j) if (!(value[j] == ' ' || value[j] == '\t')) break;` (httparsed.d:204) -/
def trimLoop (value : Slice) : Nat → Int → Except Stop Int
  | 0, _ => .error (.fault .fuel)
  | fuel + 1, j =>
    if 0 ≤ j then do
      let c ← value.get j.toNat
      if c = SP ∨ c = HT then trimLoop value fuel (j - 1) else .ok j
    else .ok j

/-- Removal of the trailing SPs and HTABs (httparsed.d:201). -/
def trimTrailing (ints : Ints) (value : Slice) : Except Stop Slice :=
  if value.length = 0 then .ok value
  else do
    let c ← value.get (value.length - 1)
    if c = SP ∨ c = HT then do
      let j ← trimLoop value (value.length + 1) (ints.wrap (ints.wrap value.length - 2))
      value.slice 0 (sizeOfInt (ints.wrap (j + 1)))
    else .ok value

/-- The `static if (hasMember "onHeader")` block (httparsed.d:198). -/
def notifyHeader {σ : Type} (ints : Ints) (h : Handler σ) (name : Option Slice) (value : Slice) : Parser σ PUnit :=
  if h.has .onHeader then do
    let value ← lift (trimTrailing ints value)
    h.notify (.onHeader name value)
  else pure ⟨⟩

/-- `for (;; ++i)` over SP and HT after the colon (httparsed.d:183). -/
def skipBlanks (buffer : Slice) : Nat → Nat → Except Stop Nat
  | 0, _ => .error (.fault .fuel)
  | fuel + 1, i =>
    if i = buffer.length then .error (.ret (err .partialData))
    else do
      let c ← buffer.get i
      if c ≠ SP ∧ c ≠ HT then .ok i else skipBlanks buffer fuel (i + 1)

/-- The part of a line before its value: the name, or `null` on a continuation line, and where the value
starts (httparsed.d:174-190). -/
def headerName (simd : Simd) (hasHeader : Bool) (buffer : Slice) : Except Stop (Option Slice × Nat) := do
  let c ← buffer.get 0
  if hasHeader = false ∨ (c ≠ SP ∧ c ≠ HT) then do
    let i ← token simd headerNameArgs buffer 0
    if i = 0 then .error (.ret (err .noHeaderName))
    else do
      let name ← buffer.slice 0 i
      let i ← skipBlanks buffer (buffer.length + 1) (i + 1)
      .ok (some name, i)
  else .ok (none, 0)

/-- What one turn of the loop ends with, short of an error: `return 0`, or the next turn. -/
inductive HeaderStep where
  | finished (buffer : Slice)
  | line (buffer : Slice)

/-- One turn of the `while (true)` loop. -/
def parseHeaderLine {σ : Type} (t : Target) (h : Handler σ) (hasHeader : Bool) (buffer : Slice) :
    Parser σ HeaderStep :=
  if buffer.length = 0 then lift (.error (.ret (err .partialData)))
  else do
    let c ← lift (buffer.get 0)
    if c = CR then
      if buffer.length = 1 then lift (.error (.ret (err .partialData)))
      else do
        let d ← lift (buffer.get 1)
        if d ≠ LF then lift (.error (.ret (err .newLine)))
        else do
          let rest ← lift (buffer.sliceFrom 2)
          pure (.finished rest)
    else if c = LF then do
      let rest ← lift (buffer.sliceFrom 1)
      pure (.finished rest)
    else do
      let (name, start) ← lift (headerName t.simd hasHeader buffer)
      let i ← lift (token t.simd textArgs buffer start)
      let value ← lift (buffer.slice start i)
      let i ← lift (advanceNewline buffer i)
      notifyHeader t.ints h name value
      let rest ← lift (buffer.sliceFrom i)
      pure (.line rest)

/-- The loop. An early return leaves the buffer where the current line starts. -/
def parseHeadersLoop {σ : Type} (t : Target) (h : Handler σ) :
    Nat → Bool → Slice → σ → Except Fault (Int × Slice) × σ
  | 0, _, _, s => (.error .fuel, s)
  | fuel + 1, hasHeader, buffer, s =>
    match parseHeaderLine t h hasHeader buffer s with
    | (.ok (.finished rest), s') => (.ok (0, rest), s')
    | (.ok (.line rest), s') => parseHeadersLoop t h fuel true rest s'
    | (.error (.ret code), s') => (.ok (code, buffer), s')
    | (.error (.fault f), s') => (.error f, s')

def parseHeaders {σ : Type} (t : Target) (h : Handler σ) (buffer : Slice) (s : σ) :
    Except Fault (Int × Slice) × σ :=
  parseHeadersLoop t h (buffer.length + 1) false buffer s

/-! ## `parse` (httparsed.d:117) -/

/-- The tolerated empty line (httparsed.d:126-135): what is left of the buffer, and `lastPos`. -/
def skipEmptyLine (ints : Ints) (buffer : Slice) (lastPos : Nat) : Except Stop (Slice × Nat) :=
  if buffer.length = 0 then .error (.ret (err .partialData))
  else do
    let c ← buffer.get 0
    if c = CR then
      if buffer.length = 1 then .error (.ret (err .partialData))
      else do
        let d ← buffer.get 1
        if d ≠ LF then .error (.ret (err .newLine))
        else do
          let lastPos := ints.uint (lastPos + 2)
          let buffer ← buffer.sliceFrom lastPos
          .ok (buffer, lastPos)
    else if c = LF then do
      let lastPos := ints.uint (lastPos + 1)
      let buffer ← buffer.sliceFrom lastPos
      .ok (buffer, lastPos)
    else .ok (buffer, lastPos)

/-- An early return from `parse` with the `lastPos` of that moment. -/
def earlyReturn (lastPos : Nat) : Stop → Except Fault (Int × Nat)
  | .ret code => .ok (code, lastPos)
  | .fault f => .error f

/-- `lastPos = cast(int)(l - buffer.length);` -/
def storePos (ints : Ints) (l : Nat) (buffer : Slice) : Except Fault Nat :=
  if buffer.length ≤ l then .ok (ints.uint (ints.wrap ((l : Int) - buffer.length))) else .error .wrap

/-- What `parse` makes of the result of `parseHeaders` (httparsed.d:144-148): the returned code and `lastPos`. -/
def finish (ints : Ints) (l : Nat) : Except Fault (Int × Slice) → Except Fault (Int × Nat)
  | .error f => .error f
  | .ok (hdrRes, rest) =>
    match storePos ints l rest with
    | .error f => .error f
    | .ok lastPos => if hdrRes < 0 then .ok (hdrRes, lastPos) else .ok (ints.wrap lastPos, lastPos)

/-- From `hdrRes` on (httparsed.d:143-148). -/
def parseRest {σ : Type} (t : Target) (h : Handler σ) (l : Nat) (buffer : Slice) (s : σ) :
    Except Fault (Int × Nat) × σ :=
  let (hdrRes, s') := parseHeaders t h buffer s
  (finish t.ints l hdrRes, s')

/-- `parse!pred(buffer, lastPos)` -/
def parse {σ : Type} (t : Target) (h : Handler σ) (pred : Slice → Parser σ Slice) (buffer : Slice) (lastPos : Nat)
    (s : σ) : Except Fault (Int × Nat) × σ :=
  if buffer.length < lastPos then (.error .assertion, s)
  else if lastPos = 0 then
    match skipEmptyLine t.ints buffer lastPos with
    | .error stop => (earlyReturn lastPos stop, s)
    | .ok (buffer', lastPos') =>
      match pred buffer' s with
      | (.error stop, s') => (earlyReturn lastPos' stop, s')
      | (.ok rest, s') =>
        match storePos t.ints buffer.length rest with
        | .error f => (.error f, s')
        | .ok _ => parseRest t h buffer.length rest s'
  else
    match buffer.sliceFrom lastPos with
    | .error stop => (earlyReturn lastPos stop, s)
    | .ok rest => parseRest t h buffer.length rest s

/-- `parseRequest(buffer, lastPos)` (httparsed.d:53) -/
def parseRequest {σ : Type} (t : Target) (h : Handler σ) (buffer : List Byte) (lastPos : Nat) (s : σ) :
    Except Fault (Int × Nat) × σ :=
  parse t h (parseRequestLine t.simd h) ⟨0, buffer⟩ lastPos s

/-- `parseResponse(buffer, lastPos)` (httparsed.d:81) -/
def parseResponse {σ : Type} (t : Target) (h : Handler σ) (buffer : List Byte) (lastPos : Nat) (s : σ) :
    Except Fault (Int × Nat) × σ :=
  parse t h (parseStatusLine t.simd h) ⟨0, buffer⟩ lastPos s

end Httparsed

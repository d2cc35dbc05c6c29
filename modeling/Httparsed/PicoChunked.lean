import Httparsed.Basic
import Httparsed.Lib.Transducer
import Mathlib.Algebra.Group.Nat.Defs

/-!
# Chunked bodies (bench/extern/picohttpparser/picohttpparser.c:517-661)

`phr_decode_chunked` takes the framing out of a chunked body where it stands: the data moves to the front of the
buffer, behind `dst`, while `src` runs through it. The buffer is the list of its `bufsz` bytes.

| here | there |
| --- | --- |
| `ChunkedState`, `ChunkedDecoder` | the `enum` (picohttpparser.c:520), `struct phr_chunked_decoder` (picohttpparser.h:62) |
| `decodeHex` | :530 |
| `Chunking` | the locals and `*decoder`, `*buf` of one call |
| `sizeLoop`, `seek` | the loops `for (;; ++src)` |
| `inChunkSize` … `inTrailersLineMiddle` | the cases of the `switch` (:550-648) |
| `decodeLoop`, `phrDecodeChunked` | `while (1)` (:548) with the labels `Complete` and `Exit` (:650-656), the function |
| `phrDecodeChunkedIsInData` | :658 |

`chunkedStep` is the same decoder byte by byte, without a buffer.
-/

namespace Httparsed.Pico

open Transducer

/-! ## State -/

/-- `CHUNKED_IN_CHUNK_SIZE` and so on; with no other value there is no corrupt decoder. -/
inductive ChunkedState where
  | inChunkSize
  | inChunkExt
  | inChunkData
  | inChunkCrlf
  | inTrailersLineHead
  | inTrailersLineMiddle
  deriving DecidableEq, Repr

structure ChunkedDecoder where
  bytes_left_in_chunk : Nat
  consume_trailer : Bool
  hex_count : Nat
  state : ChunkedState
  deriving DecidableEq, Repr

/-- "should be zero-filled before start" -/
def ChunkedDecoder.zero (consume_trailer : Bool) : ChunkedDecoder := ⟨0, consume_trailer, 0, .inChunkSize⟩

/-- The decoder with other bytes left, in another state, between two chunk sizes. -/
def ChunkedDecoder.goto (d : ChunkedDecoder) (bytes_left_in_chunk : Nat) (state : ChunkedState) : ChunkedDecoder :=
  ⟨bytes_left_in_chunk, d.consume_trailer, d.hex_count, state⟩

structure Chunking where
  buf : List Byte
  dst : Nat
  src : Nat
  decoder : ChunkedDecoder
  deriving DecidableEq, Repr

/-- How a case ends: it falls through to the next one, breaks out of the `switch` or jumps. -/
inductive Flow where
  | fallthru (w : Chunking)
  | again (w : Chunking)
  | complete (w : Chunking)
  | exit (ret : Int) (w : Chunking)
  deriving DecidableEq, Repr

/-! ## Memory -/

/-- The bytes from `src` up to `bufsz`. -/
def Chunking.rest (w : Chunking) : Except Stop (List Byte) :=
  if w.src ≤ w.buf.length then .ok (w.buf.drop w.src) else .error (.fault .range)

/-- `buf[src]` -/
def Chunking.get (w : Chunking) : Except Stop Byte :=
  match w.buf[w.src]? with
  | some c => .ok c
  | none => .error (.fault .range)

/-- `if (dst != src) memmove(buf + dst, buf + src, n);` -/
def Chunking.memmove (w : Chunking) (n : Nat) : Except Stop (List Byte) :=
  if w.dst = w.src then .ok w.buf
  else if w.dst + n ≤ w.buf.length ∧ w.src + n ≤ w.buf.length then
    .ok (w.buf.take w.dst ++ (w.buf.drop w.src).take n ++ w.buf.drop (w.dst + n))
  else .error (.fault .range)

/-- `if (dst != src) memmove(buf + dst, buf + src, n); src += n; dst += n;` -/
def Chunking.move (w : Chunking) (n : Nat) : Except Stop Chunking := do
  let buf ← w.memmove n
  .ok ⟨buf, w.dst + n, w.src + n, w.decoder⟩

/-! ## Loops -/

/-- `decode_hex`, without its `-1`. From 0x80 on a `char` is not a digit, whether it has a sign or not. -/
def decodeHex (ch : Byte) : Option Nat :=
  if 0x30 ≤ ch ∧ ch ≤ 0x39 then some (ch.toNat - 0x30)
  else if 0x41 ≤ ch ∧ ch ≤ 0x46 then some (ch.toNat - 0x41 + 0xA)
  else if 0x61 ≤ ch ∧ ch ≤ 0x66 then some (ch.toNat - 0x61 + 0xA)
  else none

/-- The loop over the digits of a chunk size: it breaks in front of the first byte that is none (`none`), or goes to
`Exit` with `ret`. A `size_t` has 64 bits. -/
def sizeLoop : ChunkedDecoder → Nat → List Byte → Option Int × Nat × ChunkedDecoder
  | d, src, [] => (some (-2), src, d)
  | d, src, c :: cs =>
    match decodeHex c with
    | none => if d.hex_count = 0 then (some (-1), src, d) else (none, src, d)
    | some v =>
      if d.hex_count = 16 then (some (-1), src, d)
      else
        sizeLoop ⟨(d.bytes_left_in_chunk * 16 + v) % 2 ^ 64, d.consume_trailer, d.hex_count + 1, d.state⟩ (src + 1) cs

/-- The other loops: to the first byte at which they break, or to the end. -/
def seek (stop : Byte → Bool) : Nat → List Byte → Bool × Nat
  | src, [] => (false, src)
  | src, c :: cs => if stop c then (true, src) else seek stop (src + 1) cs

/-- A loop, and what is done where it breaks. -/
def Chunking.seek (w : Chunking) (stop : Byte → Bool) (found : Chunking → Except Stop Flow) : Except Stop Flow := do
  let rest ← w.rest
  match Pico.seek stop w.src rest with
  | (true, src) => found ⟨w.buf, w.dst, src, w.decoder⟩
  | (false, src) => .ok (.exit (-2) ⟨w.buf, w.dst, src, w.decoder⟩)

/-! ## Cases -/

/-- `++src;` with the decoder in another state. -/
def Chunking.next (w : Chunking) (state : ChunkedState) : Chunking :=
  ⟨w.buf, w.dst, w.src + 1, w.decoder.goto w.decoder.bytes_left_in_chunk state⟩

/-- `case CHUNKED_IN_CHUNK_SIZE` -/
def inChunkSize (w : Chunking) : Except Stop Flow := do
  let rest ← w.rest
  match sizeLoop w.decoder w.src rest with
  | (some ret, src, d) => .ok (.exit ret ⟨w.buf, w.dst, src, d⟩)
  | (none, src, d) =>
    .ok (.fallthru ⟨w.buf, w.dst, src, ⟨d.bytes_left_in_chunk, d.consume_trailer, 0, .inChunkExt⟩⟩)

/-- `case CHUNKED_IN_CHUNK_EXT` -/
def inChunkExt (w : Chunking) : Except Stop Flow :=
  w.seek (· == LF) fun w =>
    if w.decoder.bytes_left_in_chunk = 0 then
      if w.decoder.consume_trailer then .ok (.again (w.next .inTrailersLineHead))
      else .ok (.complete (w.next .inChunkExt))
    else .ok (.fallthru (w.next .inChunkData))

/-- `case CHUNKED_IN_CHUNK_DATA` -/
def inChunkData (w : Chunking) : Except Stop Flow := do
  let avail ← sizeSub w.buf.length w.src
  if avail < w.decoder.bytes_left_in_chunk then do
    let w ← w.move avail
    let left ← sizeSub w.decoder.bytes_left_in_chunk avail
    .ok (.exit (-2) ⟨w.buf, w.dst, w.src, w.decoder.goto left .inChunkData⟩)
  else do
    let w ← w.move w.decoder.bytes_left_in_chunk
    .ok (.fallthru ⟨w.buf, w.dst, w.src, w.decoder.goto 0 .inChunkCrlf⟩)

/-- `case CHUNKED_IN_CHUNK_CRLF` -/
def inChunkCrlf (w : Chunking) : Except Stop Flow :=
  w.seek (· != CR) fun w => do
    let c ← w.get
    if c ≠ LF then .ok (.exit (-1) w) else .ok (.again (w.next .inChunkSize))

/-- `case CHUNKED_IN_TRAILERS_LINE_HEAD` -/
def inTrailersLineHead (w : Chunking) : Except Stop Flow :=
  w.seek (· != CR) fun w => do
    let c ← w.get
    if c = LF then .ok (.complete (w.next .inTrailersLineHead))
    else .ok (.fallthru (w.next .inTrailersLineMiddle))

/-- `case CHUNKED_IN_TRAILERS_LINE_MIDDLE` -/
def inTrailersLineMiddle (w : Chunking) : Except Stop Flow :=
  w.seek (· == LF) fun w => .ok (.again (w.next .inTrailersLineHead))

/-! ## The function -/

/-- Falling through to the next case. -/
def Flow.into (next : Chunking → Except Stop Flow) : Flow → Except Stop Flow
  | .fallthru w => next w
  | f => .ok f

/-- `switch (decoder->_state)` -/
def switch (w : Chunking) : Except Stop Flow :=
  match w.decoder.state with
  | .inChunkSize => inChunkSize w >>= Flow.into inChunkExt >>= Flow.into inChunkData >>= Flow.into inChunkCrlf
  | .inChunkExt => inChunkExt w >>= Flow.into inChunkData >>= Flow.into inChunkCrlf
  | .inChunkData => inChunkData w >>= Flow.into inChunkCrlf
  | .inChunkCrlf => inChunkCrlf w
  | .inTrailersLineHead => inTrailersLineHead w >>= Flow.into inTrailersLineMiddle
  | .inTrailersLineMiddle => inTrailersLineMiddle w

/-- A `size_t` as `ssize_t`. -/
def ssize (n : Nat) : Int := ((n : Int) + 9223372036854775808) % 18446744073709551616 - 9223372036854775808

/-- `while (1)`, up to `Exit`. -/
def decodeLoop : Nat → Chunking → Except Stop (Int × Chunking)
  | 0, _ => .error (.fault .fuel)
  | fuel + 1, w => do
    match ← switch w with
    | .fallthru w => decodeLoop fuel w
    | .again w => decodeLoop fuel w
    | .complete w => do
      let left ← sizeSub w.buf.length w.src
      .ok (ssize left, w)
    | .exit ret w => .ok (ret, w)

/-- The return value and what the three pointers point to afterwards. -/
structure PhrChunked where
  ret : Int
  decoder : ChunkedDecoder
  buf : List Byte
  bufsz : Nat
  deriving DecidableEq, Repr

/-- `phr_decode_chunked` -/
def phrDecodeChunked (decoder : ChunkedDecoder) (buf : List Byte) : Except Stop PhrChunked := do
  let (ret, w) ← decodeLoop (buf.length + 1) ⟨buf, 0, 0, decoder⟩
  let left ← sizeSub w.buf.length w.src
  let buf ← w.memmove left
  .ok ⟨ret, w.decoder, buf, w.dst⟩

/-- `phr_decode_chunked_is_in_data` -/
def phrDecodeChunkedIsInData (decoder : ChunkedDecoder) : Bool := decoder.state == .inChunkData

/-! ## The decoder byte by byte -/

/-- A byte of a chunk extension, or the LF behind it. -/
def stepChunkExt (d : ChunkedDecoder) (c : Byte) : List Byte × Next ChunkedDecoder (Except Unit Unit) :=
  if c ≠ LF then ([], .more (d.goto d.bytes_left_in_chunk .inChunkExt))
  else if d.bytes_left_in_chunk = 0 then
    if d.consume_trailer then ([], .more (d.goto d.bytes_left_in_chunk .inTrailersLineHead)) else ([], .halt (.ok ()))
  else ([], .more (d.goto d.bytes_left_in_chunk .inChunkData))

/-- What a byte does to the decoder: the data is its output, and the position plays no part. -/
def chunkedStep : Step ChunkedDecoder Byte Byte (Except Unit Unit)
  | _, d, c =>
    match d.state with
    | .inChunkSize =>
      match decodeHex c with
      | some v =>
        if d.hex_count = 16 then ([], .halt (.error ()))
        else ([], .more ⟨d.bytes_left_in_chunk * 16 + v, d.consume_trailer, d.hex_count + 1, .inChunkSize⟩)
      | none =>
        if d.hex_count = 0 then ([], .halt (.error ()))
        else stepChunkExt ⟨d.bytes_left_in_chunk, d.consume_trailer, 0, .inChunkExt⟩ c
    | .inChunkExt => stepChunkExt d c
    | .inChunkData =>
      if d.bytes_left_in_chunk = 1 then ([c], .more (d.goto 0 .inChunkCrlf))
      else ([c], .more (d.goto (d.bytes_left_in_chunk - 1) .inChunkData))
    | .inChunkCrlf =>
      if c = CR then ([], .more d)
      else if c = LF then ([], .more (d.goto d.bytes_left_in_chunk .inChunkSize))
      else ([], .halt (.error ()))
    | .inTrailersLineHead =>
      if c = CR then ([], .more d)
      else if c = LF then ([], .halt (.ok ()))
      else ([], .more (d.goto d.bytes_left_in_chunk .inTrailersLineMiddle))
    | .inTrailersLineMiddle =>
      if c = LF then ([], .more (d.goto d.bytes_left_in_chunk .inTrailersLineHead)) else ([], .more d)

/-- What a decoder makes of some bytes. -/
def decode (d : ChunkedDecoder) (b : List Byte) : List Byte × Outcome ChunkedDecoder Byte (Except Unit Unit) :=
  run chunkedStep 0 d b

theorem run_chunked (p : Nat) (d : ChunkedDecoder) (b : List Byte) : run chunkedStep p d b = decode d b :=
  run_unplaced (fun _ _ _ _ => rfl) p 0 d b

theorem decode_nil (d : ChunkedDecoder) : decode d [] = ([], .live d) := rfl

section

variable {d d' : ChunkedDecoder} {c : Byte} {o : List Byte} {v : Except Unit Unit}

theorem decode_more (h : chunkedStep 0 d c = (o, .more d')) (cs : List Byte) :
    decode d (c :: cs) = prepend o (decode d' cs) := by
  rw [decode, run_more h, run_chunked]

theorem decode_halt (h : chunkedStep 0 d c = (o, .halt v)) (cs : List Byte) :
    decode d (c :: cs) = (o, .halted v cs) :=
  run_halt h cs

theorem decode_congr (h : chunkedStep 0 d c = chunkedStep 0 d' c) (cs : List Byte) :
    decode d (c :: cs) = decode d' (c :: cs) :=
  run_cons_congr h cs

/-- Bytes that change nothing. -/
theorem decode_ignore {w : List Byte} (h : ∀ c ∈ w, chunkedStep 0 d c = ([], .more d)) (b : List Byte) :
    decode d (w ++ b) = decode d b := by
  induction w with
  | nil => rfl
  | cons c w ih =>
    rw [List.cons_append, decode_more (h c (List.mem_cons_self ..)), prepend_nil,
      ih fun x hx => h x (List.mem_cons_of_mem _ hx)]

/-- Data, up to the end of the chunk or not. -/
theorem decode_data (hd : d.state = .inChunkData) (w : List Byte) (hw : w.length < d.bytes_left_in_chunk)
    (b : List Byte) :
    decode d (w ++ b) = prepend w (decode (d.goto (d.bytes_left_in_chunk - w.length) .inChunkData) b) := by
  induction w generalizing d with
  | nil =>
    obtain ⟨left, t, k, s⟩ := d
    obtain rfl : s = .inChunkData := hd
    rfl
  | cons c w ih =>
    rw [List.length_cons] at hw
    have hstep : chunkedStep 0 d c = ([c], .more (d.goto (d.bytes_left_in_chunk - 1) .inChunkData)) := by
      simp only [chunkedStep, hd]
      rw [if_neg (by omega)]
    have hleft : w.length < (d.goto (d.bytes_left_in_chunk - 1) .inChunkData).bytes_left_in_chunk := by
      show w.length < d.bytes_left_in_chunk - 1
      omega
    rw [List.cons_append, decode_more hstep, ih rfl hleft, prepend_prepend, List.length_cons]
    show prepend (c :: w) (decode (d.goto (d.bytes_left_in_chunk - 1 - w.length) .inChunkData) b) = _
    rw [Nat.sub_sub, Nat.add_comm 1]

theorem decode_chunkEnd (hd : d.state = .inChunkData) {w : List Byte} (hpos : 0 < d.bytes_left_in_chunk)
    (hw : w.length = d.bytes_left_in_chunk) (b : List Byte) :
    decode d (w ++ b) = prepend w (decode (d.goto 0 .inChunkCrlf) b) := by
  obtain ⟨w, c, rfl⟩ : ∃ w' c, w = w' ++ [c] := by
    rcases List.eq_nil_or_concat w with rfl | ⟨w', c, rfl⟩
    · rw [← hw] at hpos
      cases hpos
    · exact ⟨w', c, List.concat_eq_append⟩
  rw [List.length_append, List.length_singleton] at hw
  have hstep : chunkedStep 0 (d.goto (d.bytes_left_in_chunk - w.length) .inChunkData) c =
      ([c], .more (d.goto 0 .inChunkCrlf)) := by
    rw [← hw, Nat.add_sub_cancel_left]
    rfl
  rw [List.append_assoc, decode_data hd w (by omega), List.singleton_append, decode_more hstep, prepend_prepend]

end

/-! ## Decoders that can be met -/

/-- What holds of a zero-filled decoder and after every byte. -/
structure ChunkedDecoder.Ok (d : ChunkedDecoder) : Prop where
  digits : d.hex_count ≤ 16
  value : d.state = .inChunkSize → d.bytes_left_in_chunk < 16 ^ d.hex_count
  count : d.state ≠ .inChunkSize → d.hex_count = 0
  data : d.state = .inChunkData → 0 < d.bytes_left_in_chunk
  crlf : d.state = .inChunkCrlf → d.bytes_left_in_chunk = 0

theorem ChunkedDecoder.zero_ok (t : Bool) : (ChunkedDecoder.zero t).Ok :=
  ⟨Nat.zero_le _, fun _ => Nat.one_pos, fun h => absurd rfl h, by rintro ⟨⟩, by rintro ⟨⟩⟩

/-- A decoder that is not at a chunk size has no digits. -/
theorem ChunkedDecoder.Ok.goto {d : ChunkedDecoder} (h : d.Ok) (hd : d.state ≠ .inChunkSize) {n : Nat}
    {s : ChunkedState} (hvalue : s = .inChunkSize → n = 0) (hdata : s = .inChunkData → 0 < n) (hcrlf : s = .inChunkCrlf → n = 0) :
    (d.goto n s).Ok where
  digits := h.digits
  value hs := by
    show n < 16 ^ d.hex_count
    rw [hvalue hs, h.count hd]
    decide
  count _ := h.count hd
  data := hdata
  crlf := hcrlf

/-- The value of a digit. -/
theorem decodeHex_lt {c : Byte} {v : Nat} (h : decodeHex c = some v) : v < 16 := by
  have hall : ∀ c : Byte, (decodeHex c).all (· < 16) = true := forall_byte (by decide +kernel)
  have hc := hall c
  rw [h] at hc
  simpa using hc

/-- One more digit still fits into a `size_t`. -/
theorem digit_fits {n k v : Nat} (hn : n < 16 ^ k) (hv : v < 16) : n * 16 + v < 16 ^ (k + 1) := by
  rw [Nat.pow_succ]
  omega

theorem ChunkedDecoder.Ok.digit {d : ChunkedDecoder} (h : d.Ok) (hd : d.state = .inChunkSize) (hk : d.hex_count ≠ 16)
    {v : Nat} (hv : v < 16) :
    (⟨d.bytes_left_in_chunk * 16 + v, d.consume_trailer, d.hex_count + 1, .inChunkSize⟩ : ChunkedDecoder).Ok where
  digits := by
    have := h.digits
    show d.hex_count + 1 ≤ 16
    omega
  value _ := digit_fits (h.value hd) hv
  count hs := absurd rfl hs
  data := by rintro ⟨⟩
  crlf := by rintro ⟨⟩

theorem ChunkedDecoder.Ok.ext {d : ChunkedDecoder} :
    (⟨d.bytes_left_in_chunk, d.consume_trailer, 0, .inChunkExt⟩ : ChunkedDecoder).Ok :=
  ⟨Nat.zero_le _, by rintro ⟨⟩, fun _ => rfl, by rintro ⟨⟩, by rintro ⟨⟩⟩

end Httparsed.Pico

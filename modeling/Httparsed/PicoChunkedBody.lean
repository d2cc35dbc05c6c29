import Httparsed.PicoChunkedRun
import Httparsed.Grammar

/-!
# The chunked bodies that are accepted

What `phr_decode_chunked` takes for a chunked body, in the words of a grammar. It is wider than that of RFC 7230:
any text up to the LF is a chunk extension, a bare LF ends a line, and so does any number of CRs with an LF behind
the data. A trailer is read only if `consume_trailer` says so; without it a body ends with its last chunk size.
Read byte by byte, these bodies are complete, what can be continued to one is incomplete, and nothing else is
(`phr_decode_chunked_bodies`).
-/

namespace Httparsed.Pico

open Transducer Grammar

/-! ## The grammar -/

def isHex (c : Byte) : Bool := (decodeHex c).isSome

def notLF (c : Byte) : Bool := c != LF

/-- The number some digits stand for. -/
def hexValue (digits : List Byte) : Nat := digits.foldl (fun n c => n * 16 + (decodeHex c).getD 0) 0

/-- `size [ext] LF` -/
structure SizeLine where
  size : Word isHex
  short : size.bytes.length ≤ 16
  ext : Text notLF
  ext_start : ∀ c ∈ ext.bytes.head?, isHex c = false

namespace SizeLine

def value (l : SizeLine) : Nat := hexValue l.size.bytes

def bytes (l : SizeLine) : List Byte := l.size.bytes ++ (l.ext.bytes ++ [LF])

end SizeLine

/-- `size [ext] LF data CR* LF` -/
structure Chunk where
  line : SizeLine
  data : List Byte
  nonempty : data ≠ []
  length_eq : data.length = line.value
  crs : Nat

def Chunk.bytes (c : Chunk) : List Byte := c.line.bytes ++ (c.data ++ (List.replicate c.crs CR ++ [LF]))

/-- `CR* first text LF` -/
structure TrailerLine where
  crs : Nat
  first : Byte
  plain : first ≠ CR ∧ first ≠ LF
  text : Text notLF

def TrailerLine.bytes (l : TrailerLine) : List Byte := List.replicate l.crs CR ++ l.first :: (l.text.bytes ++ [LF])

/-- Lines and an empty one. -/
structure Trailer where
  lines : List TrailerLine
  crs : Nat

def Trailer.bytes (t : Trailer) : List Byte :=
  t.lines.flatMap TrailerLine.bytes ++ (List.replicate t.crs CR ++ [LF])

/-- Chunks with data, the size line of one without, and a trailer if there is to be one. -/
structure ChunkedBody where
  chunks : List Chunk
  last : SizeLine
  last_zero : last.value = 0
  trailer : Option Trailer

namespace ChunkedBody

def bytes (b : ChunkedBody) : List Byte :=
  b.chunks.flatMap Chunk.bytes ++ (b.last.bytes ++ (b.trailer.map Trailer.bytes).getD [])

def data (b : ChunkedBody) : List Byte := b.chunks.flatMap Chunk.data

end ChunkedBody

/-! ## Bodies are read -/

section

variable {t : Bool} {n k : Nat}

/-- The decoder at the digits of a size. -/
def atSize (t : Bool) (n k : Nat) : ChunkedDecoder := ⟨n, t, k, .inChunkSize⟩

/-- The decoder anywhere else. -/
def after (t : Bool) (n : Nat) (s : ChunkedState) : ChunkedDecoder := ⟨n, t, 0, s⟩

section

variable (t n k) (c : Byte)

/-! What each state does with a byte. -/

theorem step_digit {c : Byte} {v : Nat} (h : decodeHex c = some v) : chunkedStep 0 (atSize t n k) c =
    if k = 16 then ([], .halt (.error ())) else ([], .more (atSize t (n * 16 + v) (k + 1))) := by
  simp only [chunkedStep, atSize, h]
  rfl

theorem step_sizeEnd {c : Byte} (h : decodeHex c = none) : chunkedStep 0 (atSize t n k) c =
    if k = 0 then ([], .halt (.error ())) else chunkedStep 0 (after t n .inChunkExt) c := by
  simp only [chunkedStep, atSize, after, h]
  rfl

theorem step_ext : chunkedStep 0 (after t n .inChunkExt) c =
    if c ≠ LF then ([], .more (after t n .inChunkExt))
    else if n = 0 then
      if t then ([], .more (after t n .inTrailersLineHead)) else ([], .halt (.ok ()))
    else ([], .more (after t n .inChunkData)) := rfl

theorem step_data : chunkedStep 0 (after t n .inChunkData) c =
    if n = 1 then ([c], .more (after t 0 .inChunkCrlf)) else ([c], .more (after t (n - 1) .inChunkData)) := rfl

theorem step_crlf : chunkedStep 0 (after t n .inChunkCrlf) c =
    if c = CR then ([], .more (after t n .inChunkCrlf))
    else if c = LF then ([], .more (atSize t n 0)) else ([], .halt (.error ())) := rfl

theorem step_head : chunkedStep 0 (after t n .inTrailersLineHead) c =
    if c = CR then ([], .more (after t n .inTrailersLineHead))
    else if c = LF then ([], .halt (.ok ())) else ([], .more (after t n .inTrailersLineMiddle)) := rfl

theorem step_middle : chunkedStep 0 (after t n .inTrailersLineMiddle) c =
    if c = LF then ([], .more (after t n .inTrailersLineHead)) else ([], .more (after t n .inTrailersLineMiddle)) := rfl

end

theorem decode_digits {w : List Byte} (hw : ∀ c ∈ w, isHex c = true) (hk : k + w.length ≤ 16) (b : List Byte) :
    decode (atSize t n k) (w ++ b) =
      decode (atSize t (w.foldl (fun n c => n * 16 + (decodeHex c).getD 0) n) (k + w.length)) b := by
  induction w generalizing n k with
  | nil => rfl
  | cons c w ih =>
    rw [List.length_cons] at hk
    obtain ⟨v, hv⟩ := Option.isSome_iff_exists.1 (hw c (List.mem_cons_self ..))
    have hstep : chunkedStep 0 (atSize t n k) c = ([], .more (atSize t (n * 16 + v) (k + 1))) := by
      rw [step_digit t n k hv, if_neg (by omega)]
    rw [List.cons_append, decode_more hstep, prepend_nil, ih (fun x hx => hw x (List.mem_cons_of_mem _ hx)) (by omega),
      List.foldl_cons, hv, List.length_cons, Option.getD_some, Nat.add_assoc, Nat.add_comm 1]

/-- What the LF of a size line leads to. -/
def afterSize (t : Bool) (n : Nat) (b : List Byte) : List Byte × Outcome ChunkedDecoder Byte (Except Unit Unit) :=
  if n = 0 then if t then decode (after t 0 .inTrailersLineHead) b else ([], .halted (.ok ()) b)
  else decode (after t n .inChunkData) b

theorem decode_sizeEnd {ext : Text notLF} (hstart : ∀ c ∈ ext.bytes.head?, isHex c = false) (hk : k ≠ 0)
    (b : List Byte) : decode (atSize t n k) (ext.bytes ++ LF :: b) = afterSize t n b := by
  have hplain : ∀ {c : Byte} {cs : List Byte}, isHex c = false →
      decode (atSize t n k) (c :: cs) = decode (after t n .inChunkExt) (c :: cs) := by
    intro c cs hc
    refine decode_congr ?_ cs
    have hnone : decodeHex c = none := Option.isNone_iff_eq_none.1 (Option.isSome_eq_false_iff.1 hc)
    rw [step_sizeEnd t n k hnone, if_neg hk]
  have henter :
      decode (atSize t n k) (ext.bytes ++ LF :: b) = decode (after t n .inChunkExt) (ext.bytes ++ LF :: b) := by
    cases hext : ext.bytes with
    | nil => exact hplain (by decide)
    | cons c cs => exact hplain (hstart c (by rw [hext]; rfl))
  have hignore : ∀ c ∈ ext.bytes, chunkedStep 0 (after t n .inChunkExt) c = ([], .more (after t n .inChunkExt)) := by
    intro c hc
    have hne : c ≠ LF := by simpa [notLF] using ext.all c hc
    rw [step_ext, if_pos hne]
  have hstep := step_ext t n LF
  rw [if_neg (by simp)] at hstep
  rw [henter, decode_ignore hignore, afterSize]
  by_cases hn : n = 0
  · subst hn
    cases t with
    | true => exact (decode_more hstep b).trans (prepend_nil _)
    | false => exact decode_halt hstep b
  · rw [if_neg hn] at hstep
    rw [if_neg hn, decode_more hstep, prepend_nil]

theorem decode_sizeLine (l : SizeLine) (b : List Byte) :
    decode (.zero t) (l.bytes ++ b) = afterSize t l.value b := by
  have hdigits := decode_digits (t := t) (n := 0) (k := 0) l.size.all (by have := l.short; omega)
    (l.ext.bytes ++ LF :: b)
  have hne : 0 + l.size.bytes.length ≠ 0 := by
    have := List.length_pos_iff.2 l.size.nonempty
    omega
  have hend := decode_sizeEnd (t := t) (n := l.value) (k := 0 + l.size.bytes.length) l.ext_start hne b
  rw [SizeLine.bytes, List.append_assoc, List.append_assoc]
  exact hdigits.trans hend

/-- CRs are skipped. -/
theorem decode_crs {s : ChunkedState} (hs : s = .inChunkCrlf ∨ s = .inTrailersLineHead) (m : Nat) (b : List Byte) :
    decode (after t n s) (List.replicate m CR ++ b) = decode (after t n s) b := by
  refine decode_ignore (fun c hc => ?_) b
  rw [List.eq_of_mem_replicate hc]
  rcases hs with rfl | rfl <;> rfl

theorem decode_chunk (c : Chunk) (b : List Byte) :
    decode (.zero t) (c.bytes ++ b) = prepend c.data (decode (.zero t) b) := by
  have hpos : 0 < c.line.value := by
    rw [← c.length_eq]
    exact List.length_pos_iff.2 c.nonempty
  have hsplit : c.bytes ++ b = c.line.bytes ++ (c.data ++ (List.replicate c.crs CR ++ LF :: b)) := by
    simp only [Chunk.bytes, List.append_assoc, List.singleton_append]
  have hend : decode (after t c.line.value .inChunkData) (c.data ++ (List.replicate c.crs CR ++ LF :: b)) =
      prepend c.data (decode (after t 0 .inChunkCrlf) (List.replicate c.crs CR ++ LF :: b)) :=
    decode_chunkEnd rfl hpos c.length_eq _
  have hnext : chunkedStep 0 (after t 0 .inChunkCrlf) LF = ([], .more (.zero t)) := rfl
  rw [hsplit, decode_sizeLine, afterSize, if_neg hpos.ne', hend, decode_crs (Or.inl rfl), decode_more hnext,
    prepend_nil]

theorem decode_chunks (cs : List Chunk) (b : List Byte) :
    decode (.zero t) (cs.flatMap Chunk.bytes ++ b) = prepend (cs.flatMap Chunk.data) (decode (.zero t) b) := by
  induction cs with
  | nil => rfl
  | cons c cs ih =>
    rw [List.flatMap_cons, List.append_assoc, decode_chunk, ih, prepend_prepend]
    rfl

theorem decode_trailerLine (l : TrailerLine) (b : List Byte) :
    decode (after t 0 .inTrailersLineHead) (l.bytes ++ b) = decode (after t 0 .inTrailersLineHead) b := by
  have hsplit : l.bytes ++ b = List.replicate l.crs CR ++ l.first :: (l.text.bytes ++ LF :: b) := by
    simp only [TrailerLine.bytes, List.append_assoc, List.cons_append, List.nil_append]
  have hfirst : chunkedStep 0 (after t 0 .inTrailersLineHead) l.first =
      ([], .more (after t 0 .inTrailersLineMiddle)) := by
    rw [step_head, if_neg l.plain.1, if_neg l.plain.2]
  have hignore : ∀ c ∈ l.text.bytes, chunkedStep 0 (after t 0 .inTrailersLineMiddle) c =
      ([], .more (after t 0 .inTrailersLineMiddle)) := by
    intro c hc
    have hne : c ≠ LF := by simpa [notLF] using l.text.all c hc
    rw [step_middle, if_neg hne]
  have hnext : chunkedStep 0 (after t 0 .inTrailersLineMiddle) LF = ([], .more (after t 0 .inTrailersLineHead)) := rfl
  rw [hsplit, decode_crs (Or.inr rfl), decode_more hfirst, prepend_nil, decode_ignore hignore, decode_more hnext,
    prepend_nil]

theorem decode_trailer (x : Trailer) (b : List Byte) :
    decode (after t 0 .inTrailersLineHead) (x.bytes ++ b) = ([], .halted (.ok ()) b) := by
  obtain ⟨lines, crs⟩ := x
  have hlines : ∀ b, decode (after t 0 .inTrailersLineHead) (lines.flatMap TrailerLine.bytes ++ b) =
      decode (after t 0 .inTrailersLineHead) b := by
    intro b
    induction lines with
    | nil => rfl
    | cons l lines ih => rw [List.flatMap_cons, List.append_assoc, decode_trailerLine, ih]
  rw [Trailer.bytes, List.append_assoc, List.append_assoc, hlines, decode_crs (Or.inr rfl)]
  exact decode_halt rfl b

/-- **A body is read to its end**, whatever follows it. -/
theorem decode_body (x : ChunkedBody) (hx : x.trailer.isSome = t) (b : List Byte) :
    decode (.zero t) (x.bytes ++ b) = (x.data, .halted (.ok ()) b) := by
  obtain ⟨chunks, last, hzero, trailer⟩ := x
  subst hx
  rw [ChunkedBody.bytes, List.append_assoc, decode_chunks, List.append_assoc, decode_sizeLine, hzero, afterSize,
    if_pos rfl]
  cases trailer with
  | none => exact congrArg (·, _) (List.append_nil _)
  | some x =>
    have hend := decode_trailer (t := true) x b
    exact (congrArg (prepend _) hend).trans (congrArg (·, _) (List.append_nil _))

end

/-! ## What is read is a body -/

/-- Inside a chunk or the end of a body: `w` has been read of it, and `o` is its data so far. -/
inductive Part (t : Bool) : List Byte → List Byte → ChunkedDecoder → Prop where
  | size (digits : Text isHex) (short : digits.bytes.length ≤ 16) :
      Part t digits.bytes [] (atSize t (hexValue digits.bytes) digits.bytes.length)
  | ext (size : Word isHex) (short : size.bytes.length ≤ 16) (ext : Word notLF)
      (start : ∀ c ∈ ext.bytes.head?, isHex c = false) :
      Part t (size.bytes ++ ext.bytes) [] (after t (hexValue size.bytes) .inChunkExt)
  | data (l : SizeLine) (w : List Byte) (n : Nat) (pos : 0 < n) (length_eq : w.length + n = l.value) :
      Part t (l.bytes ++ w) w (after t n .inChunkData)
  | crlf (l : SizeLine) (w : List Byte) (nonempty : w ≠ []) (length_eq : w.length = l.value) (k : Nat) :
      Part t (l.bytes ++ (w ++ List.replicate k CR)) w (after t 0 .inChunkCrlf)
  | head (l : SizeLine) (zero : l.value = 0) (ht : t = true) (lines : List TrailerLine) (k : Nat) :
      Part t (l.bytes ++ (lines.flatMap TrailerLine.bytes ++ List.replicate k CR)) [] (after t 0 .inTrailersLineHead)
  | middle (l : SizeLine) (zero : l.value = 0) (ht : t = true) (lines : List TrailerLine) (k : Nat) (first : Byte)
      (plain : first ≠ CR ∧ first ≠ LF) (text : Text notLF) :
      Part t (l.bytes ++ (lines.flatMap TrailerLine.bytes ++ (List.replicate k CR ++ first :: text.bytes))) []
        (after t 0 .inTrailersLineMiddle)

/-- Having read `w`, with the data `o`: some chunks and a part. -/
def Reads (t : Bool) (w o : List Byte) (d : ChunkedDecoder) : Prop :=
  ∃ (chunks : List Chunk) (w' o' : List Byte), w = chunks.flatMap Chunk.bytes ++ w' ∧
    o = chunks.flatMap Chunk.data ++ o' ∧ Part t w' o' d

section

variable {t : Bool} {w o o' : List Byte} {d d' : ChunkedDecoder} {c : Byte}

theorem reads_begin : Reads t [] [] (.zero t) := ⟨[], [], [], rfl, rfl, .size ⟨[], by simp⟩ (by simp)⟩

/-- What a byte behind the digits of a size, or in an extension, leads to. -/
theorem ext_step (size : Word isHex) (short : size.bytes.length ≤ 16) (ext : Text notLF)
    (start : ∀ x ∈ ext.bytes.head?, isHex x = false) (hc : ext.bytes = [] → isHex c = false)
    (h : chunkedStep 0 (after t (hexValue size.bytes) .inChunkExt) c = (o', .more d')) :
    Part t (size.bytes ++ ext.bytes ++ [c]) o' d' := by
  let l : SizeLine := ⟨size, short, ext, start⟩
  have hl : size.bytes ++ ext.bytes ++ [LF] = l.bytes := List.append_assoc _ _ _
  rw [step_ext] at h
  split_ifs at h with hLF hzero ht <;> cases h
  · rw [List.append_assoc]
    refine Part.ext size short ⟨ext.bytes ++ [c], by simp, ?_⟩ ?_
    · intro x hx
      rcases List.mem_append.1 hx with hx | hx
      · exact ext.all x hx
      · rw [List.mem_singleton.1 hx]
        simpa [notLF] using hLF
    · show ∀ x ∈ (ext.bytes ++ [c]).head?, isHex x = false
      cases hext : ext.bytes with
      | nil =>
        rintro x ⟨⟩
        exact hc hext
      | cons y ys =>
        rintro x ⟨⟩
        exact start y (by rw [hext]; rfl)
  · obtain rfl : c = LF := not_not.1 hLF
    have hpart := Part.head (t := t) l hzero ht [] 0
    rw [hl, hzero]
    simpa using hpart
  · obtain rfl : c = LF := not_not.1 hLF
    have hpart := Part.data (t := t) l [] (hexValue size.bytes) (Nat.pos_of_ne_zero hzero) (Nat.zero_add _)
    rw [hl]
    simpa using hpart

theorem hexValue_push {w : List Byte} {v : Nat} (h : decodeHex c = some v) :
    hexValue (w ++ [c]) = hexValue w * 16 + v := by
  rw [hexValue, List.foldl_append, List.foldl_cons, h]
  rfl

/-- **One byte of a part**: it goes on, or a chunk is complete. -/
theorem Part.step (hp : Part t w o d) (h : chunkedStep 0 d c = (o', .more d')) :
    Part t (w ++ [c]) (o ++ o') d' ∨ ∃ x : Chunk, w ++ [c] = x.bytes ∧ o ++ o' = x.data ∧ d' = .zero t := by
  cases hp with
  | size digits short =>
    left
    cases hc : decodeHex c with
    | some v =>
      rw [step_digit _ _ _ hc] at h
      split_ifs at h with hk <;> cases h
      have hpart := Part.size (t := t) (digits.push c (by rw [isHex, hc]; rfl)) (by
        rw [Text.push_bytes, List.length_append, List.length_singleton]
        omega)
      rw [Text.push_bytes, hexValue_push hc, List.length_append] at hpart
      exact hpart
    | none =>
      rw [step_sizeEnd _ _ _ hc] at h
      split_ifs at h with hk
      · cases h
      · have hne : digits.bytes ≠ [] := fun hnil => hk (by rw [hnil]; rfl)
        have hext := ext_step ⟨digits.bytes, hne, digits.all⟩ short ⟨[], by simp⟩ (by simp)
          (fun _ => by rw [isHex, hc]; rfl) h
        rwa [List.append_nil] at hext
  | ext size short ext start =>
    left
    exact ext_step size short ⟨ext.bytes, ext.all⟩ start (fun hnil => absurd hnil ext.nonempty) h
  | data l _ n pos length_eq =>
    left
    rw [step_data] at h
    have hlen : (o ++ [c]).length = o.length + 1 := by simp
    split_ifs at h with hn <;> cases h
    · have hpart := Part.crlf (t := t) l (o ++ [c]) (by simp) (by omega) 0
      rw [List.append_assoc]
      simpa using hpart
    · have hpart := Part.data (t := t) l (o ++ [c]) (n - 1) (by omega) (by omega)
      rwa [← List.append_assoc] at hpart
  | crlf l _ nonempty length_eq k =>
    rw [step_crlf] at h
    split_ifs at h with hCR hLF <;> cases h
    · left
      rw [List.append_nil, List.append_assoc, List.append_assoc, hCR, ← List.replicate_succ']
      exact Part.crlf l o nonempty length_eq (k + 1)
    · right
      refine ⟨⟨l, o, nonempty, length_eq, k⟩, ?_, List.append_nil o, rfl⟩
      rw [hLF]
      simp only [Chunk.bytes, List.append_assoc]
  | head l zero ht lines k =>
    left
    rw [step_head] at h
    split_ifs at h with hCR hLF <;> cases h
    · rw [List.append_assoc, List.append_assoc, hCR, ← List.replicate_succ']
      exact Part.head l zero ht lines (k + 1)
    · have hpart := Part.middle (t := t) l zero ht lines k c ⟨hCR, hLF⟩ ⟨[], by simp⟩
      rw [List.append_assoc, List.append_assoc]
      exact hpart
  | middle l zero ht lines k first plain text =>
    left
    rw [step_middle] at h
    split_ifs at h with hLF <;> cases h
    · have hpart := Part.head (t := t) l zero ht (lines ++ [⟨k, first, plain, text⟩]) 0
      rw [hLF]
      simpa [TrailerLine.bytes] using hpart
    · have hpart := Part.middle (t := t) l zero ht lines k first plain (text.push c (by simpa [notLF] using hLF))
      simpa using hpart

theorem reads_step (hr : Reads t w o d) (h : chunkedStep 0 d c = (o', .more d')) : Reads t (w ++ [c]) (o ++ o') d' := by
  obtain ⟨chunks, w', o₁, rfl, rfl, hp⟩ := hr
  rcases hp.step h with hp' | ⟨x, hw, ho, rfl⟩
  · exact ⟨chunks, w' ++ [c], o₁ ++ o', List.append_assoc _ _ _, List.append_assoc _ _ _, hp'⟩
  · refine ⟨chunks ++ [x], [], [], ?_, ?_, .size ⟨[], by simp⟩ (by simp)⟩
    · rw [List.append_assoc, hw]
      simp
    · rw [List.append_assoc, ho]
      simp

/-- **The last byte of a body.** -/
theorem Part.ends (hp : Part t w o d) {u : Unit} (h : chunkedStep 0 d c = (o', .halt (.ok u))) :
    ∃ x : ChunkedBody, x.trailer.isSome = t ∧ x.chunks = [] ∧ w ++ [c] = x.bytes ∧ o ++ o' = [] := by
  have hext : ∀ (size : Word isHex) (ext : Text notLF), size.bytes.length ≤ 16 →
      (∀ x ∈ ext.bytes.head?, isHex x = false) →
      chunkedStep 0 (after t (hexValue size.bytes) .inChunkExt) c = (o', .halt (.ok u)) →
        ∃ x : ChunkedBody, x.trailer.isSome = t ∧ x.chunks = [] ∧ size.bytes ++ ext.bytes ++ [c] = x.bytes ∧
          [] ++ o' = [] := by
    intro size ext short start h
    rw [step_ext] at h
    split_ifs at h with hLF hzero ht <;> cases h
    obtain rfl : c = LF := not_not.1 hLF
    refine ⟨⟨[], ⟨size, short, ext, start⟩, hzero, none⟩, (Bool.eq_false_iff.2 ht).symm, rfl, ?_, rfl⟩
    simp [ChunkedBody.bytes, SizeLine.bytes]
  cases hp with
  | size digits short =>
    cases hc : decodeHex c with
    | some v =>
      rw [step_digit _ _ _ hc] at h
      split_ifs at h <;> cases h
    | none =>
      rw [step_sizeEnd _ _ _ hc] at h
      split_ifs at h with hk
      · cases h
      · have hne : digits.bytes ≠ [] := fun hnil => hk (by rw [hnil]; rfl)
        have hend := hext ⟨digits.bytes, hne, digits.all⟩ ⟨[], by simp⟩ short (by simp) h
        rwa [List.append_nil] at hend
  | ext size short ext start => exact hext size ⟨ext.bytes, ext.all⟩ short start h
  | data l _ n pos length_eq =>
    rw [step_data] at h
    split_ifs at h <;> cases h
  | crlf l _ nonempty length_eq k =>
    rw [step_crlf] at h
    split_ifs at h <;> cases h
  | head l zero ht lines k =>
    rw [step_head] at h
    split_ifs at h with hCR hLF <;> cases h
    refine ⟨⟨[], l, zero, some ⟨lines, k⟩⟩, ht.symm, rfl, ?_, rfl⟩
    rw [hLF]
    simp [ChunkedBody.bytes, Trailer.bytes]
  | middle l zero ht lines k first plain text =>
    rw [step_middle] at h
    split_ifs at h <;> cases h

/-- A live run is inside a body. -/
theorem decode_live {b : List Byte} (h : decode (.zero t) b = (o, .live d)) : Reads t b o d :=
  run_inv_live (fun _ _ _ _ _ _ hr hs => reads_step hr hs) reads_begin h

/-- A complete body is one. -/
theorem decode_complete {b rest : List Byte} {u : Unit} (h : decode (.zero t) b = (o, .halted (.ok u) rest)) :
    ∃ x : ChunkedBody, x.trailer.isSome = t ∧ b = x.bytes ++ rest ∧ o = x.data := by
  have hstep : Preserved chunkedStep 0 (Reads t) := fun _ _ _ _ _ _ hr hs => reads_step hr hs
  obtain ⟨a, c, o₁, o₂, d₁, rfl, rfl, hr, hs⟩ := run_inv_halted hstep reads_begin h
  obtain ⟨chunks, w', o', rfl, rfl, hp⟩ := hr
  obtain ⟨x, ht, hnil, hw, ho⟩ := hp.ends hs
  refine ⟨⟨chunks, x.last, x.last_zero, x.trailer⟩, ht, ?_, ?_⟩
  · rw [ChunkedBody.bytes, hnil, List.flatMap_nil, List.nil_append] at hw
    rw [ChunkedBody.bytes, ← hw]
    simp
  · rw [List.append_assoc, ho, List.append_nil]
    rfl

end

/-! ## What is live can be continued -/

theorem isHex_zero : isHex 0x30 = true := by decide

def noExt : Text notLF := ⟨[], fun _ hc => absurd hc List.not_mem_nil⟩

theorem noExt_start : ∀ c ∈ noExt.bytes.head?, isHex c = false := by simp [noExt]

/-- Digits and an LF. -/
def bareLine (size : Word isHex) (short : size.bytes.length ≤ 16) : SizeLine := ⟨size, short, noExt, noExt_start⟩

theorem zero_short : (Word.single 0x30 isHex_zero).bytes.length ≤ 16 := by decide

def zeroLine : SizeLine := bareLine (Word.single 0x30 isHex_zero) zero_short

theorem zeroLine_value : zeroLine.value = 0 := by decide

section

variable (t : Bool)

/-- The shortest trailer. -/
def closing : Option Trailer := if t then some ⟨[], 0⟩ else none

theorem closing_isSome : (closing t).isSome = t := by cases t <;> rfl

/-- Some bytes complete a body of this kind. -/
def Completable (w : List Byte) : Prop := ∃ (y : List Byte) (x : ChunkedBody), x.trailer.isSome = t ∧ w ++ y = x.bytes

variable {t}

/-- A chunk that waits for its last LF. -/
theorem crlf_completable (l : SizeLine) {w : List Byte} (hw : w ≠ []) (hlen : w.length = l.value) (k : Nat) :
    Completable t (l.bytes ++ (w ++ List.replicate k CR)) := by
  refine ⟨LF :: (zeroLine.bytes ++ ((closing t).map Trailer.bytes).getD []),
    ⟨[⟨l, w, hw, hlen, k⟩], zeroLine, zeroLine_value, closing t⟩, closing_isSome t, ?_⟩
  simp [ChunkedBody.bytes, Chunk.bytes]

/-- A chunk that waits for data. -/
theorem data_completable (l : SizeLine) {w : List Byte} (hw : w.length < l.value) : Completable t (l.bytes ++ w) := by
  have hlen : (w ++ List.replicate (l.value - w.length) 0).length = l.value := by
    rw [List.length_append, List.length_replicate]
    omega
  have hne : w ++ List.replicate (l.value - w.length) 0 ≠ [] := by
    intro hnil
    rw [hnil] at hlen
    rw [← hlen] at hw
    cases hw
  obtain ⟨y, x, hx, hy⟩ := crlf_completable (t := t) l hne hlen 0
  refine ⟨List.replicate (l.value - w.length) 0 ++ y, x, hx, ?_⟩
  rw [← hy]
  simp

theorem trailer_completable (l : SizeLine) (hl : l.value = 0) (lines : List TrailerLine) (k : Nat) (ht : t = true) :
    Completable t (l.bytes ++ (lines.flatMap TrailerLine.bytes ++ List.replicate k CR)) := by
  refine ⟨[LF], ⟨[], l, hl, some ⟨lines, k⟩⟩, ht.symm, ?_⟩
  simp [ChunkedBody.bytes, Trailer.bytes]

theorem line_completable (l : SizeLine) : Completable t l.bytes := by
  by_cases hl : l.value = 0
  · refine ⟨((closing t).map Trailer.bytes).getD [], ⟨[], l, hl, closing t⟩, closing_isSome t, ?_⟩
    simp [ChunkedBody.bytes]
  · have hdata := data_completable (t := t) l (w := []) (Nat.pos_of_ne_zero hl)
    rwa [List.append_nil] at hdata

theorem Completable.of_append {w z : List Byte} (h : Completable t (w ++ z)) : Completable t w := by
  obtain ⟨y, x, hx, hy⟩ := h
  exact ⟨z ++ y, x, hx, by rw [← List.append_assoc, hy]⟩

theorem Part.completable {w o : List Byte} {d : ChunkedDecoder} (hp : Part t w o d) : Completable t w := by
  cases hp with
  | size digits short =>
    by_cases hnil : digits.bytes = []
    · rw [hnil]
      exact Completable.of_append (z := zeroLine.bytes) (line_completable zeroLine)
    · exact Completable.of_append (z := [LF]) (line_completable (bareLine ⟨digits.bytes, hnil, digits.all⟩ short))
  | ext size short ext start =>
    have hline := line_completable (t := t) ⟨size, short, ⟨ext.bytes, ext.all⟩, start⟩
    rw [SizeLine.bytes, ← List.append_assoc] at hline
    exact hline.of_append
  | data l _ n pos length_eq => exact data_completable l (by omega)
  | crlf l _ nonempty length_eq k => exact crlf_completable l nonempty length_eq k
  | head l zero ht lines k => exact trailer_completable l zero lines k ht
  | middle l zero ht lines k first plain text =>
    have hline := trailer_completable (t := t) l zero (lines ++ [⟨k, first, plain, text⟩]) 0 ht
    refine Completable.of_append (z := [LF]) ?_
    simpa [TrailerLine.bytes] using hline

theorem Reads.completable {w o : List Byte} {d : ChunkedDecoder} (h : Reads t w o d) : Completable t w := by
  obtain ⟨chunks, w', o', rfl, -, hp⟩ := h
  obtain ⟨y, x, hx, hy⟩ := hp.completable
  refine ⟨y, ⟨chunks ++ x.chunks, x.last, x.last_zero, x.trailer⟩, hx, ?_⟩
  rw [List.append_assoc, hy]
  simp [ChunkedBody.bytes]

end

/-! ## The answers -/

section

variable {t : Bool} {b left : List Byte}

/-- `b` begins with a body of this kind, and `left` is behind it. -/
def BeginsWith (t : Bool) (b left : List Byte) : Prop := ∃ x : ChunkedBody, x.trailer.isSome = t ∧ b = x.bytes ++ left

theorem decode_complete_iff : (decode (.zero t) b).2 = .halted (.ok ()) left ↔ BeginsWith t b left := by
  constructor
  · intro h
    obtain ⟨x, hx, hb, -⟩ := decode_complete (show decode (.zero t) b = (_, .halted (.ok ()) left) from Prod.ext rfl h)
    exact ⟨x, hx, hb⟩
  · rintro ⟨x, hx, rfl⟩
    rw [decode_body x hx]

/-- The data of a body is what has been decoded on the way to its end. -/
theorem decode_prefix {x : ChunkedBody} (hx : x.trailer.isSome = t) {y : List Byte} (h : b ++ y = x.bytes) :
    (decode (.zero t) b).1 <+: x.data := by
  have hfst : (decode (.zero t) b).1 <+: (decode (.zero t) (b ++ y)).1 := run_fst_prefix 0 _ b y
  have hbody := decode_body x hx []
  rw [List.append_nil] at hbody
  rwa [h, hbody] at hfst

/-- **Viable prefixes.** -/
theorem decode_live_iff :
    (∃ d, (decode (.zero t) b).2 = .live d) ↔ (¬ ∃ left, BeginsWith t b left) ∧ Completable t b := by
  constructor
  · rintro ⟨d, h⟩
    refine ⟨?_, (decode_live (show decode (.zero t) b = (_, .live d) from Prod.ext rfl h)).completable⟩
    rintro ⟨left, hb⟩
    rw [decode_complete_iff.2 hb] at h
    cases h
  · rintro ⟨hno, y, x, hx, hy⟩
    rcases hr : decode (.zero t) b with ⟨o, d | ⟨e | u, rest⟩⟩
    · exact ⟨d, rfl⟩
    · -- a refusal stays one
      have hrefused : decode (.zero t) (b ++ y) = (o, .halted (.error e) (rest ++ y)) := halted_append hr y
      have hbody := decode_body x hx []
      rw [List.append_nil, ← hy, hrefused] at hbody
      cases hbody
    · exact absurd ⟨rest, decode_complete_iff.1 (by rw [hr])⟩ hno

/-- In the middle of the data of a chunk. -/
def InData (b : List Byte) : Prop :=
  ∃ (chunks : List Chunk) (l : SizeLine) (w : List Byte), w.length < l.value ∧
    b = chunks.flatMap Chunk.bytes ++ (l.bytes ++ w)

theorem decode_inData {d : ChunkedDecoder} (h : (decode (.zero t) b).2 = .live d) :
    phrDecodeChunkedIsInData d = true ↔ InData b := by
  constructor
  · intro hd
    obtain ⟨chunks, w, o, rfl, -, hp⟩ := decode_live (show decode (.zero t) b = (_, .live d) from Prod.ext rfl h)
    cases hp with
    | data l _ n pos length_eq => exact ⟨chunks, l, o, by omega, rfl⟩
    | _ => cases hd
  · rintro ⟨chunks, l, w, hw, rfl⟩
    have hdata := decode_data (d := after t l.value .inChunkData) rfl w hw []
    rw [List.append_nil, decode_nil] at hdata
    rw [decode_chunks, decode_sizeLine, afterSize, if_neg (by omega), hdata] at h
    cases h
    rfl

end

/-- **The bodies that are decoded.** However the bytes arrive, they are complete exactly when they begin with a
body, whose data is what has been decoded, and `left` is what is behind it; they are incomplete exactly when they do
not, but can be continued to a body, part of whose data has then been decoded; and the decoder says that it is in the
middle of data exactly when the bytes end there. -/
theorem phr_decode_chunked_bodies (consume_trailer : Bool) {pieces : List (List Byte)}
    (hlen : ∀ x ∈ pieces, x.length < 2 ^ 63) :
    ∃ o e, decodePieces (.zero consume_trailer) pieces = .ok (o, e) ∧
      (∀ left, e = .complete left ↔ BeginsWith consume_trailer pieces.flatten left) ∧
      ((∃ d, e = .incomplete d) ↔
        (¬ ∃ left, BeginsWith consume_trailer pieces.flatten left) ∧ Completable consume_trailer pieces.flatten) ∧
      (∀ (x : ChunkedBody) (left : List Byte), x.trailer.isSome = consume_trailer →
        pieces.flatten = x.bytes ++ left → o = x.data) ∧
      (∀ (x : ChunkedBody) (y : List Byte), x.trailer.isSome = consume_trailer →
        pieces.flatten ++ y = x.bytes → o <+: x.data) ∧
      ∀ d, e = .incomplete d → (phrDecodeChunkedIsInData d = true ↔ InData pieces.flatten) := by
  refine ⟨_, _, decodePieces_run (ChunkedDecoder.zero_ok _) hlen, ?_, ?_, ?_, ?_, ?_⟩
  · intro left
    rw [chunkedEnd_complete, decode_complete_iff]
  · simp only [chunkedEnd_incomplete, decode_live_iff]
  · intro x left hx hb
    rw [hb, decode_body x hx]
  · intro x y hx hy
    exact decode_prefix hx hy
  · intro d he
    exact decode_inData (chunkedEnd_incomplete.1 he)

/-- A body cut inside a line end and inside its data, with the first bytes of the next message behind it. -/
theorem phr_decode_chunked_bodies_cut :
    ∃ o e, decodePieces (.zero false) [[0x35, 0x0D], [0x0A, 0x68, 0x65], [0x6C, 0x6C, 0x6F, 0x0A, 0x30, 0x0A, 0x47]] =
        .ok (o, e) ∧
      ∀ x : ChunkedBody, x.trailer.isSome = false →
        [0x35, 0x0D, 0x0A, 0x68, 0x65, 0x6C, 0x6C, 0x6F, 0x0A, 0x30, 0x0A, 0x47] = x.bytes ++ [0x47] → o = x.data := by
  obtain ⟨o, e, hdecode, -, -, hdata, -⟩ := @phr_decode_chunked_bodies false
    [[0x35, 0x0D], [0x0A, 0x68, 0x65], [0x6C, 0x6C, 0x6F, 0x0A, 0x30, 0x0A, 0x47]] (by decide)
  exact ⟨o, e, hdecode, fun x hx h => hdata x [0x47] hx h⟩

end Httparsed.Pico

import Httparsed.Basic

/-!
# The scanner: `buildValidCharMap` and `parseToken` (httparsed.d:364-447, :591-623)

`parseToken` is compiled with an unrolled loop or, where SSE4.2 is there, with a loop over blocks of 16
bytes. Both hand over to one byte-by-byte loop (`FOUND:`). The main result is `parseToken_eq`: from an
index inside the buffer either build does what the plain scan of the remaining bytes does, and traps
on nothing.

The only thing an SSE build adds is the intrinsic, taken here with its documented answer
(`Pcmpestri`): the index of the first byte that lies in one of the ranges.
-/

namespace Httparsed

/-! ## Ranges -/

/-- `c` lies in one of the ranges; two bytes a range, both ends included. -/
def inRanges : List Byte → Byte → Bool
  | lo :: hi :: rest, c => (decide (lo ≤ c) && decide (c ≤ hi)) || inRanges rest c
  | _, _ => false

/-- `for (int j=lo; j <= hi; ++j) res[j] = false;` -/
def markInvalid (res : Byte → Bool) (lo hi : Byte) : Byte → Bool :=
  (List.range' lo.toNat (hi.toNat + 1 - lo.toNat)).foldl (fun m j => Function.update m (UInt8.ofNat j) false) res

/-- The outer loop of `buildValidCharMap`, two bytes of the range string a turn. -/
def markRanges : List Byte → (Byte → Bool) → Byte → Bool
  | lo :: hi :: rest, res => markRanges rest (markInvalid res lo hi)
  | _, res => res

/-- `buildValidCharMap` (httparsed.d:591); the `bool[256]` is a function on bytes. -/
def buildValidCharMap (invalidRanges : List Byte) : Byte → Bool := markRanges invalidRanges fun _ => true

theorem foldl_update_false (js : List Nat) (hj : ∀ j ∈ js, j < 256) (m : Byte → Bool) (c : Byte) :
    js.foldl (fun m j => Function.update m (UInt8.ofNat j) false) m c = (m c && !decide (c.toNat ∈ js)) := by
  induction js generalizing m with
  | nil => simp
  | cons j js ih =>
    have hj' : (UInt8.ofNat j).toNat = j := UInt8.toNat_ofNat_of_lt' (hj j (by simp))
    rw [List.foldl_cons, ih (fun k hk => hj k (by simp [hk]))]
    by_cases hc : c = UInt8.ofNat j
    · subst hc
      simp [hj']
    · have hne : c.toNat ≠ j := fun h => hc (UInt8.toNat_inj.1 (by rw [h, hj']))
      simp [hc, hne]

theorem markInvalid_apply (res : Byte → Bool) (lo hi c : Byte) :
    markInvalid res lo hi c = (res c && !(decide (lo ≤ c) && decide (c ≤ hi))) := by
  have hhi := hi.toNat_lt
  rw [markInvalid, foldl_update_false]
  · congr 2
    simp only [List.mem_range'_1, UInt8.le_iff_toNat_le, ← Bool.decide_and, decide_eq_decide]
    omega
  · intro j hj
    simp only [List.mem_range'_1] at hj
    omega

theorem markRanges_apply (r : List Byte) (res : Byte → Bool) (c : Byte) :
    markRanges r res c = (res c && !inRanges r c) := by
  induction r, res using markRanges.induct with
  | case1 lo hi rest res ih =>
    rw [markRanges, ih, markInvalid_apply, inRanges, Bool.not_or, Bool.and_assoc]
  | case2 r res h =>
    rw [markRanges, inRanges]
    · simp
    · exact h
    · exact h

/-- **The character map** is exactly the complement of the ranges it is built from. -/
theorem buildValidCharMap_eq (r : List Byte) (c : Byte) : buildValidCharMap r c = !inRanges r c := by
  rw [buildValidCharMap, markRanges_apply, Bool.true_and]

/-! ## Template arguments -/

/-- The template arguments of `parseToken`, with what the compiler asserts of them: an even number of
range bytes, at most 16 of them for the register, and next characters that are in the ranges. That the
SSE ranges cover the exact ones is what `sseRanges` is for (`tokenSSERanges`, httparsed.d:111). -/
structure TokenArgs where
  ranges : List Byte
  next : List Byte
  sseRanges : Option (List Byte)
  even : ranges.length % 2 = 0
  next_ne : next ≠ []
  next_invalid : ∀ c ∈ next, buildValidCharMap ranges c = false
  sse_le : (sseRanges.getD ranges).length ≤ 16
  sse_even : (sseRanges.getD ranges).length % 2 = 0
  sse_cover : ∀ c, inRanges ranges c = true → inRanges (sseRanges.getD ranges) c = true

namespace TokenArgs

/-- `usedRng` (httparsed.d:383) -/
def usedRng (a : TokenArgs) : List Byte := a.sseRanges.getD a.ranges

/-- `charMap` (httparsed.d:370) -/
def charMap (a : TokenArgs) : Byte → Bool := buildValidCharMap a.ranges

theorem not_next_of_valid {a : TokenArgs} {c : Byte} (h : a.charMap c = true) : c ∉ a.next := by
  intro hc
  have := a.next_invalid c hc
  rw [charMap] at h
  rw [h] at this
  cases this

end TokenArgs

/-! ## The SSE intrinsic -/

/-- `_mm_cmpestri` in ranges / unsigned-byte / least-significant mode: `run ranges n bytes` compares 16
bytes with the first `n` range bytes. -/
structure Pcmpestri where
  run : List Byte → Nat → List Byte → Nat
  least : ∀ ranges n bytes, bytes.length = 16 → run ranges n bytes = bytes.findIdx (inRanges (ranges.take n))

instance : Inhabited Pcmpestri := ⟨⟨fun ranges n bytes => bytes.findIdx (inRanges (ranges.take n)), fun _ _ _ _ => rfl⟩⟩

/-- Which of the two scanners is compiled in (`LDC_with_SSE42`). -/
inductive Simd where
  | unrolled
  | sse42 (pcmpestri : Pcmpestri)

/-- `padRanges` (httparsed.d:375) -/
def padRanges (ranges : List Byte) : List Byte := ranges ++ List.replicate (16 - ranges.length) 0

/-- `_mm_loadu_si128(&buffer[i])`: 16 bytes, all of which must be there. -/
def load16 (buffer : Slice) (i : Nat) : Except Stop (List Byte) :=
  if i + 16 ≤ buffer.length then .ok ((buffer.bytes.drop i).take 16) else .error (.fault .range)

/-! ## `parseToken` -/

/-- `static foreach (_; 0..8) { if (!charMap[buffer[i]]) goto FOUND; ++i; }`; `true` is the `goto`. -/
def unrolled8 (charMap : Byte → Bool) (buffer : Slice) : Nat → Nat → Except Stop (Bool × Nat)
  | 0, i => .ok (false, i)
  | k + 1, i => do
    let c ← buffer.get i
    if charMap c = false then .ok (true, i) else unrolled8 charMap buffer k (i + 1)

/-- `while (buffer.length - i >= 8)` (httparsed.d:418) -/
def unrolledLoop (charMap : Byte → Bool) (buffer : Slice) : Nat → Nat → Except Stop (Bool × Nat)
  | 0, _ => .error (.fault .fuel)
  | fuel + 1, i => do
    let left ← sizeSub buffer.length i
    if 8 ≤ left then
      let (found, i) ← unrolled8 charMap buffer 8 i
      if found then .ok (true, i) else unrolledLoop charMap buffer fuel i
    else .ok (false, i)

/-- The `do … while (left != 0)` over blocks of 16 bytes (httparsed.d:395). -/
def sseLoop (pcmpestri : Pcmpestri) (ranges16 : List Byte) (rangesSize : Nat) (buffer : Slice) :
    Nat → Nat → Nat → Except Stop (Bool × Nat)
  | 0, _, _ => .error (.fault .fuel)
  | fuel + 1, left, i => do
    let b16 ← load16 buffer i
    let r := pcmpestri.run ranges16 rangesSize b16
    if r ≠ 16 then .ok (true, i + r)
    else
      let left ← sizeSub left 16
      if left ≠ 0 then sseLoop pcmpestri ranges16 rangesSize buffer fuel left (i + 16) else .ok (false, i + 16)

/-- The fast part of the scan; `true` is `goto FOUND`. -/
def scanBlocks (simd : Simd) (a : TokenArgs) (buffer : Slice) (i : Nat) : Except Stop (Bool × Nat) :=
  match simd with
  | .unrolled => unrolledLoop a.charMap buffer (buffer.length + 1) i
  | .sse42 pcmpestri => do
    let n ← sizeSub buffer.length i
    if 16 ≤ n then
      -- `& ~15` rounds down to a multiple of 16
      sseLoop pcmpestri (padRanges a.usedRng) a.usedRng.length buffer (buffer.length + 1) (n / 16 * 16) i
    else .ok (false, i)

/-- `FOUND: while (true)` (httparsed.d:431) -/
def foundLoop (a : TokenArgs) (buffer : Slice) : Nat → Nat → Except Stop (Int × Nat)
  | 0, _ => .error (.fault .fuel)
  | fuel + 1, i => do
    let c ← buffer.get i
    if c ∈ a.next then .ok (0, i)
    else if a.charMap c = false then .ok (err .token, i)
    else if i + 1 = buffer.length then .ok (err .partialData, i + 1)
    else foundLoop a buffer fuel (i + 1)

/-- `parseToken` (httparsed.d:364): the code and the index it leaves behind. -/
def parseToken (simd : Simd) (a : TokenArgs) (buffer : Slice) (i : Nat) : Except Stop (Int × Nat) := do
  let (found, i) ← scanBlocks simd a buffer i
  if found = false ∧ buffer.length ≤ i then .ok (err .partialData, i)
  else foundLoop a buffer (buffer.length + 1) i

/-! ## The reference scan -/

/-- The scan byte by byte over the bytes that remain from index `i` on. -/
def scan (a : TokenArgs) : Nat → List Byte → Int × Nat
  | i, [] => (err .partialData, i)
  | i, c :: cs =>
    if c ∈ a.next then (0, i) else if a.charMap c = false then (err .token, i) else scan a (i + 1) cs

/-- A block loop may leave off at `k` when it has only passed valid bytes. -/
structure Skipped (charMap : Byte → Bool) (buffer : Slice) (i : Nat) (r : Bool × Nat) : Prop where
  le : i ≤ r.2
  le_length : r.2 ≤ buffer.length
  valid : ∀ j c, i ≤ j → j < r.2 → buffer.bytes[j]? = some c → charMap c = true
  found : r.1 = true → r.2 < buffer.length

section Blocks

variable {charMap : Byte → Bool} {buffer : Slice}

theorem skipped_refl {i : Nat} (hi : i ≤ buffer.length) : Skipped charMap buffer i (false, i) :=
  ⟨Nat.le_refl i, hi, fun j c h1 h2 => by simp only at h2; omega, by simp⟩

theorem Skipped.trans {i k : Nat} {b : Bool} {r : Bool × Nat} (h1 : Skipped charMap buffer i (b, k))
    (h2 : Skipped charMap buffer k r) : Skipped charMap buffer i r := by
  refine ⟨Nat.le_trans h1.le h2.le, h2.le_length, fun j c hij hjr hc => ?_, h2.found⟩
  by_cases hjk : j < k
  · exact h1.valid j c hij hjk hc
  · exact h2.valid j c (by omega) hjr hc

theorem getElem?_of_get {i : Nat} {c : Byte} (h : buffer.get i = .ok c) : buffer.bytes[i]? = some c := by
  unfold Slice.get at h
  split at h
  · rename_i d hd
    rw [hd]
    exact congrArg some (by simpa using h)
  · cases h

theorem get_of_lt (buffer : Slice) {i : Nat} (hi : i < buffer.length) : ∃ c, buffer.get i = .ok c := by
  have : buffer.bytes[i]? = some buffer.bytes[i] := List.getElem?_eq_getElem hi
  exact ⟨buffer.bytes[i], by simp only [Slice.get, this]⟩

theorem unrolled8_spec (charMap : Byte → Bool) (buffer : Slice) (k i : Nat) (h : i + k ≤ buffer.length) :
    ∃ r, unrolled8 charMap buffer k i = .ok r ∧ Skipped charMap buffer i r ∧ (r.1 = false → r.2 = i + k) := by
  induction k generalizing i with
  | zero => exact ⟨(false, i), rfl, skipped_refl h, fun _ => rfl⟩
  | succ k ih =>
    obtain ⟨c, hc⟩ := get_of_lt buffer (show i < buffer.length by omega)
    simp only [unrolled8, hc, ok_bind]
    by_cases hm : charMap c = false
    · simp only [hm, ↓reduceIte]
      refine ⟨(true, i), rfl, ⟨Nat.le_refl i, by simp only; omega, ?_, fun _ => by simp only; omega⟩, by simp⟩
      intro j d h1 h2
      simp only at h2
      omega
    · obtain ⟨r, hr, hs, hk⟩ := ih (i + 1) (by omega)
      have hstep : Skipped charMap buffer i (false, i + 1) := by
        refine ⟨by simp only; omega, by simp only; omega, fun j d h1 h2 hd => ?_, by simp⟩
        obtain rfl : j = i := by simp only at h2; omega
        rw [getElem?_of_get hc] at hd
        obtain rfl : c = d := by simpa using hd
        simpa using hm
      simp only [hm]
      refine ⟨r, hr, hstep.trans hs, fun h0 => ?_⟩
      have := hk h0
      omega

theorem unrolledLoop_spec (fuel i : Nat) (hi : i ≤ buffer.length) (hf : buffer.length - i < 8 * fuel) :
    ∃ r, unrolledLoop charMap buffer fuel i = .ok r ∧ Skipped charMap buffer i r := by
  induction fuel generalizing i with
  | zero => omega
  | succ fuel ih =>
    simp only [unrolledLoop, sizeSub_ok hi, ok_bind]
    by_cases h8 : 8 ≤ buffer.length - i
    · obtain ⟨⟨found, k⟩, hr, hs, hk⟩ := unrolled8_spec charMap buffer 8 i (by omega)
      simp only [h8, ↓reduceIte, hr, ok_bind]
      cases found with
      | true => exact ⟨(true, k), rfl, hs⟩
      | false =>
        have hki : k = i + 8 := hk rfl
        obtain ⟨r, hr', hs'⟩ := ih k hs.le_length (by omega)
        exact ⟨r, hr', hs.trans hs'⟩
    · simp only [h8, ↓reduceIte]
      exact ⟨(false, i), rfl, skipped_refl hi⟩

theorem padRanges_take (r : List Byte) : (padRanges r).take r.length = r := by
  simp [padRanges]

/-- What one block tells: the bytes before the reported index are outside the SSE ranges. -/
theorem pcmpestri_block (cmp : Pcmpestri) {r : List Byte} {i : Nat} (h16 : i + 16 ≤ buffer.length)
    (hcover : ∀ c, charMap c = false → inRanges r c = true) :
    cmp.run (padRanges r) r.length ((buffer.bytes.drop i).take 16) ≤ 16 ∧
    ∀ j c, i ≤ j → j < i + cmp.run (padRanges r) r.length ((buffer.bytes.drop i).take 16) →
      buffer.bytes[j]? = some c → charMap c = true := by
  have hl : ((buffer.bytes.drop i).take 16).length = 16 := by
    simp only [List.length_take, List.length_drop]
    simp only [Slice.length] at h16
    omega
  rw [cmp.least _ _ _ hl, padRanges_take]
  refine ⟨Nat.le_trans List.findIdx_le_length (by omega), fun j c hij hj hc => ?_⟩
  have hlt : j - i < ((buffer.bytes.drop i).take 16).findIdx (inRanges r) := by omega
  have hno := List.not_of_lt_findIdx hlt
  have hb : ((buffer.bytes.drop i).take 16)[j - i]? = some c := by
    have hle := Nat.lt_of_lt_of_le hlt List.findIdx_le_length
    rw [hl] at hle
    rw [List.getElem?_take, if_pos hle, List.getElem?_drop, show i + (j - i) = j by omega, hc]
  obtain ⟨_, hget⟩ := List.getElem?_eq_some_iff.1 hb
  rw [hget] at hno
  by_contra hv
  rw [hcover c (by simpa using hv)] at hno
  simp at hno

theorem sseLoop_spec (cmp : Pcmpestri) {r : List Byte} (hcover : ∀ c, charMap c = false → inRanges r c = true)
    (fuel left i : Nat) (h0 : 0 < left) (hm : left % 16 = 0) (hl : i + left ≤ buffer.length)
    (hf : left ≤ 16 * fuel) :
    ∃ res, sseLoop cmp (padRanges r) r.length buffer fuel left i = .ok res ∧ Skipped charMap buffer i res := by
  induction fuel generalizing left i with
  | zero => omega
  | succ fuel ih =>
    have h16 : i + 16 ≤ buffer.length := by omega
    obtain ⟨hle, hvalid⟩ := pcmpestri_block cmp h16 hcover
    simp only [sseLoop, load16, h16, ↓reduceIte, ok_bind]
    generalize cmp.run (padRanges r) r.length ((buffer.bytes.drop i).take 16) = x at hle hvalid ⊢
    by_cases hx : x = 16
    · subst hx
      have hblock : Skipped charMap buffer i (false, i + 16) := ⟨by simp only; omega, h16, hvalid, by simp⟩
      simp only [ne_eq, not_true_eq_false, ↓reduceIte, sizeSub_ok (show 16 ≤ left by omega), ok_bind]
      by_cases hz : left - 16 = 0
      · simp only [hz, not_true_eq_false, ↓reduceIte]
        exact ⟨(false, i + 16), rfl, hblock⟩
      · simp only [hz, not_false_eq_true, ↓reduceIte]
        obtain ⟨res, hr, hs⟩ := ih (left - 16) (i + 16) (by omega) (by omega) (by omega) (by omega)
        exact ⟨res, hr, hblock.trans hs⟩
    · simp only [ne_eq, hx, not_false_eq_true, ↓reduceIte]
      exact ⟨(true, i + x), rfl, by simp only; omega, by simp only; omega, hvalid, fun _ => by simp only; omega⟩

end Blocks

theorem scanBlocks_spec (simd : Simd) (a : TokenArgs) (buffer : Slice) (i : Nat) (hi : i ≤ buffer.length) :
    ∃ r, scanBlocks simd a buffer i = .ok r ∧ Skipped a.charMap buffer i r := by
  cases simd with
  | unrolled => exact unrolledLoop_spec (buffer.length + 1) i hi (by omega)
  | sse42 cmp =>
    simp only [scanBlocks, sizeSub_ok hi, ok_bind]
    by_cases h16 : 16 ≤ buffer.length - i
    · simp only [h16, ↓reduceIte]
      refine sseLoop_spec cmp (fun c hc => ?_) (buffer.length + 1) _ i (by omega) (by omega) (by omega) (by omega)
      rw [TokenArgs.charMap, buildValidCharMap_eq] at hc
      exact a.sse_cover c (by simpa using hc)
    · simp only [h16, ↓reduceIte]
      exact ⟨(false, i), rfl, skipped_refl hi⟩

/-- Skipping valid bytes does not change what the scan finds. -/
theorem scan_skip (a : TokenArgs) (buffer : Slice) : ∀ (n i : Nat), i + n ≤ buffer.length →
    (∀ j c, i ≤ j → j < i + n → buffer.bytes[j]? = some c → a.charMap c = true) →
    scan a i (buffer.bytes.drop i) = scan a (i + n) (buffer.bytes.drop (i + n))
  | 0, _, _, _ => rfl
  | n + 1, i, hle, hv => by
    have hi : i < buffer.bytes.length := by simp only [Slice.length] at hle; omega
    have hc : a.charMap buffer.bytes[i] = true :=
      hv i _ (Nat.le_refl i) (by omega) (List.getElem?_eq_getElem hi)
    have ih := scan_skip a buffer n (i + 1) (by omega) (fun j c h1 h2 => hv j c (by omega) (by omega))
    rw [List.drop_eq_getElem_cons hi, scan]
    simp only [TokenArgs.not_next_of_valid hc, hc, ↓reduceIte, Bool.true_eq_false]
    rw [ih, show i + 1 + n = i + (n + 1) by omega]

theorem foundLoop_eq (a : TokenArgs) (buffer : Slice) (fuel i : Nat) (hi : i < buffer.length)
    (hf : buffer.length ≤ i + fuel) :
    foundLoop a buffer fuel i = .ok (scan a i (buffer.bytes.drop i)) := by
  induction fuel generalizing i with
  | zero => omega
  | succ fuel ih =>
    have hi' : i < buffer.bytes.length := hi
    have hd := List.drop_eq_getElem_cons hi'
    rw [hd, scan]
    simp only [foundLoop, Slice.get_ok hd, ok_bind]
    by_cases hn : buffer.bytes[i] ∈ a.next
    · simp only [hn, ↓reduceIte]
    · by_cases hc : a.charMap buffer.bytes[i] = false
      · simp only [hn, hc, ↓reduceIte]
      · by_cases he : i + 1 = buffer.length
        · have : buffer.bytes.drop (i + 1) = [] := List.drop_eq_nil_of_le (Nat.le_of_eq he.symm)
          simp only [hn, hc, he, ↓reduceIte]
          rw [he] at this
          simp [this, scan]
        · simp only [hn, hc, he, ↓reduceIte]
          exact ih (i + 1) (by omega) (by omega)

/-- **`parseToken`**, in either build, is the byte-by-byte scan of what remains of the buffer. -/
theorem parseToken_eq (simd : Simd) (a : TokenArgs) (buffer : Slice) (i : Nat) (hi : i ≤ buffer.length) :
    parseToken simd a buffer i = .ok (scan a i (buffer.bytes.drop i)) := by
  obtain ⟨⟨found, k⟩, hr, hs⟩ := scanBlocks_spec simd a buffer i hi
  obtain ⟨n, rfl⟩ : ∃ n, k = i + n := ⟨k - i, by have := hs.le; simp only at this; omega⟩
  have hk : i + n ≤ buffer.length := hs.le_length
  rw [scan_skip a buffer n i hk hs.valid]
  simp only [parseToken, hr, ok_bind]
  by_cases hend : found = false ∧ buffer.length ≤ i + n
  · have : buffer.bytes.drop (i + n) = [] := List.drop_eq_nil_of_le hend.2
    simp only [hend, and_self, ↓reduceIte, this, scan]
  · simp only [hend, ↓reduceIte]
    refine foundLoop_eq a buffer _ _ ?_ (by omega)
    cases found with
    | true => exact hs.found rfl
    | false => simp only [true_and] at hend; omega

end Httparsed

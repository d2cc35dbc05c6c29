import Httparsed.Parser
import Mathlib.Order.Bounds.Basic

/-!
# The two builds of `parseToken` against a reference scan (httparsed.d:364-447)

The reference knows neither blocks nor tables: it looks for the first byte from index `i` on that lies in
one of the invalid ranges and asks whether that byte is a next character. The main result is
`scanners_agree`; what its `TokenArgs` ask for is what the compiler asserts, and the list
`instantiations` of all uses in the parser has it.
-/

namespace Httparsed

/-! ## The reference -/

/-- Byte `k` of the buffer lies in one of the ranges. -/
def InvalidAt (ranges bytes : List Byte) (k : Nat) : Prop := ∃ c, bytes[k]? = some c ∧ inRanges ranges c = true

/-- The first index from `i` on at which a byte lies in one of the ranges. -/
def firstInvalid (ranges bytes : List Byte) (i : Nat) : Option Nat :=
  ((bytes.drop i).findIdx? (inRanges ranges)).map (i + ·)

/-- The scan as its documentation has it: the code, and the index that is left behind. -/
def referenceScan (ranges next bytes : List Byte) (i : Nat) : Int × Nat :=
  match firstInvalid ranges bytes i with
  | none => (err .partialData, bytes.length)
  | some k => (if ∃ c ∈ next, bytes[k]? = some c then 0 else err .token, k)

theorem invalidAt_drop {ranges bytes : List Byte} {i k : Nat} :
    InvalidAt ranges (bytes.drop i) k ↔ InvalidAt ranges bytes (i + k) := by
  simp only [InvalidAt, List.getElem?_drop]

theorem findIdx?_eq_some_invalid {ranges bytes : List Byte} {k : Nat} :
    bytes.findIdx? (inRanges ranges) = some k ↔
      InvalidAt ranges bytes k ∧ ∀ j < k, ¬InvalidAt ranges bytes j := by
  rw [List.findIdx?_eq_some_iff_getElem]
  constructor
  · rintro ⟨hk, hp, hleast⟩
    refine ⟨⟨bytes[k], List.getElem?_eq_getElem hk, hp⟩, ?_⟩
    rintro j hj ⟨c, hc, hcr⟩
    obtain ⟨hj', rfl⟩ := List.getElem?_eq_some_iff.1 hc
    exact hleast j hj hcr
  · rintro ⟨⟨c, hc, hcr⟩, hleast⟩
    obtain ⟨hk, rfl⟩ := List.getElem?_eq_some_iff.1 hc
    refine ⟨hk, hcr, fun j hj hjr => ?_⟩
    exact hleast j hj ⟨_, List.getElem?_eq_getElem (Nat.lt_trans hj hk), hjr⟩

/-- What `firstInvalid` finds is the least index of its kind. -/
theorem firstInvalid_eq_some_iff {ranges bytes : List Byte} {i k : Nat} :
    firstInvalid ranges bytes i = some k ↔ IsLeast {k | i ≤ k ∧ InvalidAt ranges bytes k} k := by
  simp only [firstInvalid, Option.map_eq_some_iff, findIdx?_eq_some_invalid, invalidAt_drop]
  constructor
  · rintro ⟨d, ⟨hd, hleast⟩, rfl⟩
    refine ⟨⟨Nat.le_add_right i d, hd⟩, ?_⟩
    rintro j ⟨hij, hj⟩
    by_contra hlt
    refine hleast (j - i) (by omega) ?_
    rwa [show i + (j - i) = j by omega]
  · rintro ⟨⟨hik, hk⟩, hleast⟩
    refine ⟨k - i, ⟨?_, fun j hj hjr => ?_⟩, by omega⟩
    · rwa [show i + (k - i) = k by omega]
    · have := hleast ⟨Nat.le_add_right i j, hjr⟩
      omega

theorem firstInvalid_eq_none_iff {ranges bytes : List Byte} {i : Nat} :
    firstInvalid ranges bytes i = none ↔ ∀ k, i ≤ k → ¬InvalidAt ranges bytes k := by
  simp only [firstInvalid, Option.map_eq_none_iff, List.findIdx?_eq_none_iff]
  constructor
  · rintro h k hik ⟨c, hc, hcr⟩
    have hmem : c ∈ bytes.drop i :=
      List.mem_of_getElem? (i := k - i) (by rw [List.getElem?_drop, show i + (k - i) = k by omega, hc])
    rw [h c hmem] at hcr
    cases hcr
  · intro h c hc
    obtain ⟨j, hj⟩ := List.mem_iff_getElem?.1 hc
    rw [List.getElem?_drop] at hj
    have := h (i + j) (Nat.le_add_right i j)
    by_contra hne
    exact this ⟨c, hj, by simpa using hne⟩

/-! ## The scan of the remaining bytes is the reference -/

section

variable {a : TokenArgs} {c : Byte}

theorem TokenArgs.charMap_eq (a : TokenArgs) (c : Byte) : a.charMap c = !inRanges a.ranges c :=
  buildValidCharMap_eq a.ranges c

/-- A byte outside the ranges is stepped over. -/
theorem scan_valid (h : inRanges a.ranges c = false) (i : Nat) (cs : List Byte) :
    scan a i (c :: cs) = scan a (i + 1) cs := by
  have hv : a.charMap c = true := by rw [a.charMap_eq, h]; rfl
  simp [scan, hv, TokenArgs.not_next_of_valid hv]

/-- A byte inside the ranges ends the scan; it is the next characters that make it a success. -/
theorem scan_invalid (h : inRanges a.ranges c = true) (i : Nat) (cs : List Byte) :
    scan a i (c :: cs) = (if c ∈ a.next then 0 else err .token, i) := by
  have hv : a.charMap c = false := by rw [a.charMap_eq, h]; rfl
  by_cases hn : c ∈ a.next
  · simp only [scan, hn, ↓reduceIte]
  · simp only [scan, hn, hv, ↓reduceIte]

end

theorem scan_eq_findIdx (a : TokenArgs) (cs : List Byte) (i : Nat) :
    scan a i cs = match cs.findIdx? (inRanges a.ranges) with
      | none => (err .partialData, i + cs.length)
      | some d => (if ∃ c ∈ a.next, cs[d]? = some c then 0 else err .token, i + d) := by
  induction cs generalizing i with
  | nil => rfl
  | cons c cs ih =>
    cases hc : inRanges a.ranges c with
    | true =>
      rw [scan_invalid hc, List.findIdx?_cons, hc]
      simp
    | false =>
      rw [scan_valid hc, ih, List.findIdx?_cons, hc]
      cases cs.findIdx? (inRanges a.ranges) with
      | none => simp only [Bool.false_eq_true, ↓reduceIte, Option.map_none, List.length_cons]; congr 1; omega
      | some d =>
        simp only [Bool.false_eq_true, ↓reduceIte, Option.map_some, List.getElem?_cons_succ]
        congr 1
        omega

theorem scan_eq_reference (a : TokenArgs) (bytes : List Byte) {i : Nat} (hi : i ≤ bytes.length) :
    scan a i (bytes.drop i) = referenceScan a.ranges a.next bytes i := by
  rw [scan_eq_findIdx, referenceScan, firstInvalid]
  cases (bytes.drop i).findIdx? (inRanges a.ranges) with
  | none => simp only [Option.map_none, List.length_drop]; congr 1; omega
  | some d => simp only [Option.map_some, List.getElem?_drop]

/-! ## The instantiations -/

/-- Every `parseToken!(…)` of the request line, the status line and the headers. -/
def instantiations : List TokenArgs :=
  [methodArgs, headerNameArgs, uriArgs, requestVersionArgs, statusVersionArgs, textArgs]

/-- **The scanners agree**: both builds of `parseToken` stop where the reference does and say what it says. -/
theorem scanners_agree (cmp : Pcmpestri) (a : TokenArgs) (buffer : Slice) (i : Nat) (hi : i ≤ buffer.length) :
    ∃ r, parseToken (.sse42 cmp) a buffer i = .ok r ∧ parseToken .unrolled a buffer i = .ok r ∧
      r = referenceScan a.ranges a.next buffer.bytes i ∧
      ((∀ k, i ≤ k → ¬InvalidAt a.ranges buffer.bytes k) → r = (err .partialData, buffer.length)) ∧
      (∀ k c, IsLeast {k | i ≤ k ∧ InvalidAt a.ranges buffer.bytes k} k → buffer.bytes[k]? = some c →
        r = (if c ∈ a.next then 0 else err .token, k)) ∧
      instantiations.map (fun a => (a.ranges, a.next, a.sseRanges)) =
        [(tokenRanges, [SP], some tokenSSERanges), (tokenRanges, [COLON], some tokenSSERanges),
          (uriRanges, [SP], none), (versionRanges, [CR, LF], none), (versionRanges, [SP], none),
          (textRanges, [CR, LF], none)] := by
  refine ⟨referenceScan a.ranges a.next buffer.bytes i, ?_, ?_, rfl, fun hnone => ?_, fun k c hleast hc => ?_, rfl⟩
  · rw [parseToken_eq _ a buffer i hi, scan_eq_reference a buffer.bytes hi]
  · rw [parseToken_eq _ a buffer i hi, scan_eq_reference a buffer.bytes hi]
  · rw [referenceScan, firstInvalid_eq_none_iff.2 hnone]
    rfl
  · rw [referenceScan, firstInvalid_eq_some_iff.2 hleast]
    simp [hc]

/-- A method of 19 bytes with a `~`, which only the SSE ranges take for invalid. -/
theorem scanners_agree_tilde :
    parseToken (.sse42 default) methodArgs ⟨0, 0x7E :: List.replicate 18 0x61 ++ [SP]⟩ 0 = .ok (0, 19) ∧
      parseToken .unrolled methodArgs ⟨0, 0x7E :: List.replicate 18 0x61 ++ [SP]⟩ 0 = .ok (0, 19) := by
  obtain ⟨r, hsse, hunrolled, hr, -⟩ :=
    scanners_agree default methodArgs ⟨0, 0x7E :: List.replicate 18 0x61 ++ [SP]⟩ 0 (by decide)
  have he : r = (0, 19) := by rw [hr]; decide
  rw [hsse, hunrolled, he]
  exact ⟨rfl, rfl⟩

end Httparsed

import Httparsed.RefineParse
import Httparsed.ReadsHead
import Mathlib.Algebra.Group.Nat.Defs

/-!
# What an application observes

Below 2^31 bytes the integer conversions of the parser are exact and the trimming of a value takes off
exactly the SPs and HTs at its end. A call is then the answer of the reader of heads (`answer`), with its
callbacks offered one by one to an application that may refuse one (`Entry.parse_exact`). `observe` is a
call with a log of the callbacks made.
-/

namespace Httparsed

open Transducer Grammar

variable {σ : Type}

/-! ## Exact integers -/

/-- The integer types hold every size up to `n`. -/
structure Ints.Faithful (ints : Ints) (n : Nat) : Prop where
  wrap : ∀ x : Int, -2 ≤ x → x ≤ n → ints.wrap x = x
  uint : ∀ m : Nat, m ≤ n → ints.uint m = m
  size : n < 2 ^ 63

theorem Ints.d_small : Ints.d.Small := by
  intro n hn
  constructor
  · show ((n : Int) + 2147483648) % 4294967296 - 2147483648 = n
    omega
  · show ((n : Int) % 4294967296).toNat = n
    omega

theorem Ints.d_faithful {n : Nat} (hn : n < 2 ^ 31) : Ints.d.Faithful n where
  wrap := by
    intro x h1 h2
    show (x + 2147483648) % 4294967296 - 2147483648 = x
    omega
  uint := by
    intro m hm
    show ((m : Int) % 4294967296).toNat = m
    omega
  size := by omega

theorem Ints.exact_small : Ints.exact.Small := fun _ _ => ⟨rfl, rfl⟩

theorem Ints.exact_faithful {n : Nat} (hn : n < 2 ^ 63) : Ints.exact.Faithful n :=
  ⟨fun _ _ _ => rfl, fun _ _ => rfl, hn⟩

theorem Ints.Faithful.store {ints : Ints} {n m : Nat} (h : ints.Faithful n) (hm : m ≤ n) : ints.store m = m := by
  rw [Ints.store, h.wrap m (by omega) (by exact_mod_cast hm), h.uint m hm]

theorem Ints.Faithful.mono {ints : Ints} {n m : Nat} (h : ints.Faithful n) (hm : m ≤ n) : ints.Faithful m :=
  ⟨fun x h1 h2 => h.wrap x h1 (by omega), fun k hk => h.uint k (by omega), by have := h.size; omega⟩

/-! ## Trimming -/

/-- The downward loop, from the last of `k` bytes: it stops on the last one that is not a blank. -/
theorem trimLoop_eq (value : Slice) {fuel k : Nat} (hk : k ≤ value.length) (hf : k < fuel) :
    trimLoop value fuel ((k : Int) - 1) = .ok ((((value.bytes.take k).rdropWhile blank).length : Int) - 1) := by
  induction k generalizing fuel with
  | zero =>
    obtain ⟨fuel, rfl⟩ : ∃ m, fuel = m + 1 := ⟨fuel - 1, by omega⟩
    rw [trimLoop, if_neg (by omega)]
    simp
  | succ k ih =>
    obtain ⟨fuel, rfl⟩ : ∃ m, fuel = m + 1 := ⟨fuel - 1, by omega⟩
    obtain ⟨c, hc⟩ := get_of_lt value (show k < value.length by omega)
    have htake : value.bytes.take (k + 1) = value.bytes.take k ++ [c] := by
      rw [List.take_add_one, getElem?_of_get hc]
      rfl
    have hnat : (((k + 1 : Nat) : Int) - 1).toNat = k := by omega
    rw [trimLoop, if_pos (by omega), hnat, hc, ok_bind, htake]
    by_cases hb : c = SP ∨ c = HT
    · rw [if_pos hb, List.rdropWhile_concat_pos _ _ _ (blank_iff.2 hb), ← ih (show k ≤ value.length by omega)
        (show k < fuel by omega)]
      congr 1
      omega
    · have hmin : min k value.bytes.length = k := Nat.min_eq_left (Nat.le_of_succ_le hk)
      rw [if_neg hb, List.rdropWhile_concat_neg _ _ _ (mt blank_iff.1 hb), List.length_append, List.length_take,
        List.length_singleton, hmin]

/-- A value that does not end in a blank is left as it is, whatever the integers. -/
theorem trimTrailing_plain {ints : Ints} {value : Slice} (h : ∀ c ∈ value.bytes.getLast?, blank c = false) :
    trimTrailing ints value = .ok value.stripTrailing := by
  have hself : value.stripTrailing = value := by
    have hstrip : value.bytes.rdropWhile blank = value.bytes := by
      refine List.rdropWhile_eq_self_iff.2 fun hne => ?_
      rw [h _ (List.getLast?_eq_some_getLast hne)]
      exact Bool.false_ne_true
    rw [Slice.stripTrailing, hstrip]
  rw [hself]
  unfold trimTrailing
  by_cases h0 : value.length = 0
  · rw [if_pos h0]
  · obtain ⟨c, hc⟩ := get_of_lt value (show value.length - 1 < value.length by omega)
    have hlast : value.bytes.getLast? = some c := by
      rw [List.getLast?_eq_getElem?]
      exact getElem?_of_get hc
    rw [if_neg h0, hc, ok_bind, if_neg (blank_false_iff.1 (h c hlast))]

/-- One that does is cut behind the byte the downward loop stops on. -/
theorem trimTrailing_blank {ints : Ints} {value : Slice} {c : Byte} (hlast : value.bytes.getLast? = some c)
    (hb : blank c = true) :
    trimTrailing ints value = (do
      let j ← trimLoop value (value.length + 1) (ints.wrap (ints.wrap value.length - 2))
      value.slice 0 (sizeOfInt (ints.wrap (j + 1)))) := by
  have h0 : value.length ≠ 0 := by
    intro h
    rw [List.length_eq_zero_iff.1 h] at hlast
    cases hlast
  have hget : value.get (value.length - 1) = .ok c := by
    have hget? : value.bytes[value.length - 1]? = some c := by
      rw [← hlast, List.getLast?_eq_getElem?]
      rfl
    simp only [Slice.get, hget?]
  rw [trimTrailing, if_neg h0, hget, ok_bind, if_pos (blank_iff.1 hb)]

/-- Looking at the first `k` bytes only is enough when nothing else is left behind them. -/
theorem rdropWhile_take_iff {α : Type} (P : α → Bool) (w : List α) (k : Nat) :
    (w.take k).rdropWhile P = w.rdropWhile P ↔ (w.rdropWhile P).length ≤ k := by
  constructor
  · intro h
    rw [← h]
    exact ((List.rdropWhile_prefix P _).length_le).trans (List.length_take_le k w)
  · intro hk
    have hsplit := List.rdropWhile_append_rtakeWhile (p := P) (l := w)
    have htake : w.take k = w.rdropWhile P ++ (w.rtakeWhile P).take (k - (w.rdropWhile P).length) := by
      conv_lhs => rw [← hsplit]
      rw [List.take_append, List.take_of_length_le hk]
    have hall : ∀ t : List α, (∀ c ∈ t, P c = true) → (w.rdropWhile P ++ t).rdropWhile P = w.rdropWhile P := by
      intro t
      induction t using List.reverseRecOn with
      | nil =>
        intro _
        rw [List.append_nil]
        exact List.rdropWhile_idempotent P w
      | append_singleton t c ih =>
        intro ht
        rw [← List.append_assoc, List.rdropWhile_concat_pos _ _ _ (ht c (by simp))]
        exact ih fun d hd => ht d (by simp [hd])
    rw [htake]
    refine hall _ fun c hc => ?_
    exact List.mem_rtakeWhile_imp (List.mem_of_mem_take hc)

/-- From the last of `k` bytes on, the loop and the cut behind it strip these `k` bytes. -/
theorem trim_from {ints : Ints} {value : Slice} {k : Nat} (hk : k ≤ value.length) (hsize : value.length < 2 ^ 63)
    (hwrap : ints.wrap ((value.bytes.take k).rdropWhile blank).length =
      ((value.bytes.take k).rdropWhile blank).length) :
    (do
      let j ← trimLoop value (value.length + 1) ((k : Int) - 1)
      value.slice 0 (sizeOfInt (ints.wrap (j + 1)))) = .ok ⟨value.ptr, (value.bytes.take k).rdropWhile blank⟩ := by
  have hprefix : (value.bytes.take k).rdropWhile blank <+: value.bytes :=
    (List.rdropWhile_prefix ..).trans (List.take_prefix ..)
  have hle : ((value.bytes.take k).rdropWhile blank).length ≤ value.length := hprefix.length_le
  rw [trimLoop_eq value hk (by omega), ok_bind]
  generalize hr : (value.bytes.take k).rdropWhile blank = r at hprefix hle hwrap
  have hstop : sizeOfInt (ints.wrap ((r.length : Int) - 1 + 1)) = r.length := by
    rw [Int.sub_add_cancel, hwrap, sizeOfInt]
    omega
  rw [hstop, Slice.slice_ok (Nat.zero_le _) hle]
  simp only [Slice.sub, Nat.add_zero, List.drop_zero, Nat.sub_zero, Except.ok.injEq, Slice.mk.injEq, true_and]
  exact (List.prefix_iff_eq_take.1 hprefix).symm

/-- A value that ends in a blank loses at least that one. -/
theorem stripTrailing_lt {w : List Byte} {c : Byte} (hlast : w.getLast? = some c) (hb : blank c = true) :
    (w.rdropWhile blank).length ≤ w.length - 1 := by
  obtain ⟨v, rfl⟩ := List.getLast?_eq_some_iff.1 hlast
  rw [List.rdropWhile_concat_pos _ _ _ hb, List.length_append, List.length_singleton, Nat.add_sub_cancel]
  exact (List.rdropWhile_prefix blank v).length_le

/-- A value ends in a blank or it does not. -/
theorem plain_or_blank (w : List Byte) :
    (∀ c ∈ w.getLast?, blank c = false) ∨ ∃ c, w.getLast? = some c ∧ blank c = true := by
  cases hlast : w.getLast? with
  | none => exact Or.inl fun c hc => nomatch hc
  | some c =>
    cases hb : blank c with
    | false =>
      refine Or.inl fun d hd => ?_
      rwa [← Option.some.inj hd]
    | true => exact Or.inr ⟨c, rfl, hb⟩

theorem length_pos_of_getLast? {w : List Byte} {c : Byte} (h : w.getLast? = some c) : 0 < w.length := by
  obtain ⟨v, rfl⟩ := List.getLast?_eq_some_iff.1 h
  rw [List.length_append]
  exact Nat.succ_pos _

/-- **The trimming takes off exactly the trailing blanks** when the integers are exact. -/
theorem trimTrailing_eq {ints : Ints} {value : Slice} (h : ints.Faithful value.length) :
    trimTrailing ints value = .ok value.stripTrailing := by
  rcases plain_or_blank value.bytes with hplain | ⟨c, hlast, hb⟩
  · exact trimTrailing_plain hplain
  · have hpos : 0 < value.length := length_pos_of_getLast? hlast
    have hstart : ints.wrap (ints.wrap value.length - 2) = ((value.length - 1 : Nat) : Int) - 1 := by
      have hlen : ints.wrap value.length = value.length := h.wrap _ (by omega) (by omega)
      rw [hlen, h.wrap _ (by omega) (by omega)]
      omega
    have hsame : (value.bytes.take (value.length - 1)).rdropWhile blank = value.bytes.rdropWhile blank :=
      (rdropWhile_take_iff ..).2 (stripTrailing_lt hlast hb)
    have hle : (value.bytes.rdropWhile blank).length ≤ value.length := (List.rdropWhile_prefix ..).length_le
    rw [trimTrailing_blank hlast hb, hstart, trim_from (Nat.sub_le ..) h.size, hsame]
    · rfl
    · rw [hsame, h.wrap _ (by omega) (by omega)]

/-! ## The answer to a buffer -/

/-- The value of a header callback, in bytes. -/
def Event.valueLength : Event Slice → Nat
  | .onHeader _ value => value.length
  | _ => 0

theorem valueLength_of_not_header {e : Event Slice} (h : e.isHeader = false) : e.valueLength = 0 := by
  cases e with
  | onHeader name value => cases h
  | _ => rfl

theorem rawValue_length (p : Nat) (x : Content) : (x.rawValue p).length ≤ x.bytes.length := by
  cases x with
  | named n raw =>
    have hle := (List.dropWhile_sublist blank (l := raw.bytes)).length_le
    simp only [Content.rawValue, Content.bytes, Slice.stripLeading, Slice.length, List.length_append, List.length_cons]
    omega
  | continued raw h => exact Nat.le_refl _

theorem lineCalls_valueLength {p : Nat} {ls : List Line} :
    ∀ x ∈ lineCalls p ls, x.2.valueLength ≤ (linesBytes ls).length := by
  induction ls generalizing p with
  | nil => intro x hx; cases hx
  | cons l ls ih =>
    intro x hx
    simp only [linesBytes, List.flatMap_cons, List.length_append]
    rcases List.mem_cons.1 hx with rfl | hx
    · have hle : (l.content.rawValue p).length ≤ l.content.bytes.length := rawValue_length p l.content
      simp only [rawEvent, Event.valueLength, Line.bytes, List.length_append]
      omega
    · have hle := ih x hx
      simp only [linesBytes] at hle
      omega

/-- A header section reports no value longer than itself. -/
theorem run_header_valueLength (p : Nat) (b : List Byte) :
    ∀ x ∈ (run headerStep p (headerStart p) b).1, x.2.valueLength ≤ b.length := by
  obtain ⟨ls, tail, -, hb, ho, -⟩ := run_header_lines p b
  intro x hx
  rw [ho] at hx
  have hle := lineCalls_valueLength x hx
  rw [hb, List.length_append]
  omega

theorem read_valueLength {l : StartLine} (g : StartGrammar l) (b : List Byte) (lastPos : Nat) :
    ∀ x ∈ (read l b lastPos).1, x.2.valueLength ≤ b.length := by
  obtain ⟨o, m, hno, hread⟩ := read_forms g b lastPos
  have hstart : ∀ x ∈ o.map (Prod.mk m), x.2.valueLength ≤ b.length := by
    intro x hx
    obtain ⟨e, he, rfl⟩ := List.mem_map.1 hx
    rw [valueLength_of_not_header (hno e he)]
    exact Nat.zero_le _
  rcases hread with ⟨ho, -, -⟩ | ⟨q, hr, -, -⟩
  · rw [ho]
    exact hstart
  · rw [hr]
    intro x hx
    rcases List.mem_append.1 hx with hx | hx
    · exact hstart x hx
    · have hle := run_header_valueLength q (b.drop q) x hx
      rw [List.length_drop] at hle
      omega

/-- What a call makes of a buffer when no callback objects: the code, `lastPos`, and the callbacks, each with
the `lastPos` that is left should it object. -/
structure Answer where
  code : Int
  lastPos : Nat
  calls : List (Nat × Event Slice)

def outcomeCode {τ : Type} : Outcome τ Byte (Except (ParserError × Nat) Nat) → Int
  | .live _ => err .partialData
  | .halted (.error (e, _)) _ => err e
  | .halted (.ok n) _ => n

def Answer.events (a : Answer) : List (Event Slice) := a.calls.map Prod.snd

/-- The answer of a reader of heads. -/
def answer (l : StartLine) (b : List Byte) (lastPos : Nat) : Answer where
  code := outcomeCode (read l b lastPos).2
  lastPos := stopMark HeadState.mark (read l b lastPos).2
  calls := (read l b lastPos).1.map fun x => (x.1, x.2.trim)

/-! ## No position lies outside the buffer -/

theorem lineCalls_mark {p : Nat} {ls : List Line} :
    ∀ x ∈ lineCalls p ls, p ≤ x.1 ∧ x.1 ≤ p + (linesBytes ls).length := by
  induction ls generalizing p with
  | nil => intro x hx; cases hx
  | cons l ls ih =>
    intro x hx
    simp only [linesBytes, List.flatMap_cons, List.length_append]
    rcases List.mem_cons.1 hx with rfl | hx
    · exact ⟨Nat.le_refl _, Nat.le_add_right _ _⟩
    · have hle := ih x hx
      simp only [linesBytes] at hle
      omega

@[simp] theorem stopMark_inSnd {l : StartLine}
    (r : List (Nat × Event Slice) × Outcome HeaderState Byte (Except (ParserError × Nat) Nat)) :
    stopMark (HeadState.mark (l := l)) (inSnd r).2 = stopMark HeaderState.mark r.2 := by
  obtain ⟨o, out⟩ := r
  rcases out with s | ⟨⟨e, m⟩ | n, rest⟩ <;> rfl

/-- The header section from `p` on stays between `p` and the end of the buffer. -/
theorem run_header_marks (p : Nat) (b : List Byte) :
    (∀ x ∈ (run headerStep p (headerStart p) b).1, p ≤ x.1 ∧ x.1 ≤ p + b.length) ∧
      p ≤ stopMark HeaderState.mark (run headerStep p (headerStart p) b).2 ∧
      stopMark HeaderState.mark (run headerStep p (headerStart p) b).2 ≤ p + b.length := by
  obtain ⟨ls, tail, -, hb, ho, hend⟩ := run_header_lines p b
  have hlen : b.length = (linesBytes ls).length + tail.length := by rw [hb, List.length_append]
  constructor
  · intro x hx
    rw [ho] at hx
    have hle := lineCalls_mark x hx
    omega
  · rcases hr : (run headerStep p (headerStart p) b).2 with s | ⟨⟨e, m⟩ | n, rest⟩
    · rw [hr] at hend
      have h1 : s.mark = p + (linesBytes ls).length := hend.1
      simp only [stopMark]
      omega
    · rw [hr] at hend
      have h1 : m = p + (linesBytes ls).length := hend
      simp only [stopMark]
      omega
    · rw [hr] at hend
      obtain ⟨eol, rfl, rfl⟩ := hend
      simp only [List.length_append] at hlen
      simp only [stopMark, List.length_append]
      omega

/-- **Every mark is a position of the buffer.** -/
theorem read_marks {l : StartLine} (g : StartGrammar l) (b : List Byte) {lastPos : Nat} (hpos : lastPos ≤ b.length) :
    (∀ x ∈ (read l b lastPos).1, x.1 ≤ b.length) ∧ stopMark HeadState.mark (read l b lastPos).2 ≤ b.length := by
  obtain ⟨o, m, -, hread⟩ := read_forms g b lastPos
  have hstart : m ≤ b.length → ∀ x ∈ o.map (Prod.mk m), x.1 ≤ b.length := by
    intro hm x hx
    obtain ⟨e, -, rfl⟩ := List.mem_map.1 hx
    exact hm
  rcases hread with ⟨ho, hstop, hm⟩ | ⟨q, hr, hmq, hq⟩
  · rw [ho, hstop]
    exact ⟨hstart hm, hm⟩
  · obtain ⟨h1, -, h2⟩ := run_header_marks q (b.drop q)
    have hend : q + (b.drop q).length = b.length := by
      rw [List.length_drop]
      exact Nat.add_sub_cancel' (hq hpos)
    rw [hr, prepend_snd, stopMark_inSnd, ← hend]
    refine ⟨?_, h2⟩
    intro x hx
    rcases List.mem_append.1 hx with hx | hx
    · rw [hend]
      exact hstart (hmq.trans (hq hpos)) x hx
    · exact (h1 x hx).2

/-! ## A call is its answer, offered to the application -/

/-- One callback as the application sees it: a negative answer refuses it. -/
def consult (h : Handler σ) (e : Event Slice) (s : σ) : Except Int Unit × σ :=
  if h.has e.member = true then
    if (h.call e s).1 < 0 then (.error (h.call e s).1, (h.call e s).2) else (.ok ⟨⟩, (h.call e s).2)
  else (.ok ⟨⟩, s)

theorem notify_eq_consult (h : Handler σ) (e : Event Slice) (s : σ) :
    h.notify e s = ((consult h e s).1.mapError Stop.ret, (consult h e s).2) := by
  rw [Handler.notify_apply]
  unfold consult
  by_cases hm : h.has e.member = true
  · by_cases hr : (h.call e s).1 < 0
    · simp only [hm, hr, and_self, ↓reduceIte]
      rfl
    · simp only [hm, hr, and_false, ↓reduceIte]
      rfl
  · simp only [hm, Bool.false_eq_true, false_and, ↓reduceIte]
    rfl

/-- A callback with its value as the trimming leaves it, where that comes to an end. -/
def Event.cut (ints : Ints) : Event Slice → Event Slice
  | .onHeader name value =>
    match trimTrailing ints value with
    | .ok v => .onHeader name v
    | .error _ => .onHeader name value
  | e => e

@[simp] theorem cut_member (ints : Ints) (e : Event Slice) : (e.cut ints).member = e.member := by
  cases e with
  | onHeader name value =>
    simp only [Event.cut]
    split <;> rfl
  | _ => rfl

/-- The trimming comes to an end, if the application has a use for headers at all. -/
def Cuts (ints : Ints) (h : Handler σ) (e : Event Slice) : Prop :=
  ∀ name value, e = .onHeader name value → h.has .onHeader = true → ∃ v, trimTrailing ints value = .ok v

/-- Handing a callback over is offering it with its value cut. -/
theorem handOver_cut {ints : Ints} {h : Handler σ} {e : Event Slice} (hc : Cuts ints h e) (s : σ) :
    handOver ints h e s = ((consult h (e.cut ints) s).1.mapError Stop.ret, (consult h (e.cut ints) s).2) := by
  rw [← notify_eq_consult]
  cases e with
  | onHeader name value =>
    show notifyHeader ints h name value s = _
    unfold notifyHeader
    by_cases hm : h.has .onHeader = true
    · obtain ⟨v, hv⟩ := hc name value rfl hm
      rw [if_pos hm, hv, lift_ok_bind]
      simp only [Event.cut, hv]
    · have habsent : h.has (Event.cut ints (.onHeader name value)).member = false := by
        rw [cut_member]
        exact Bool.eq_false_iff.2 hm
      rw [if_neg hm, notify_absent h habsent]
  | _ => rfl

/-- With exact integers the value is stripped. -/
theorem cut_eq_trim {ints : Ints} {e : Event Slice} (hf : ints.Faithful e.valueLength) : e.cut ints = e.trim := by
  cases e with
  | onHeader name value => simp only [Event.cut, trimTrailing_eq hf, Event.trim]
  | _ => rfl

theorem handOver_eq {ints : Ints} (h : Handler σ) {e : Event Slice} (hf : ints.Faithful e.valueLength) (s : σ) :
    handOver ints h e s = ((consult h e.trim s).1.mapError Stop.ret, (consult h e.trim s).2) := by
  rw [← cut_eq_trim hf]
  refine handOver_cut ?_ s
  rintro name value rfl -
  exact ⟨_, trimTrailing_eq hf⟩

/-- The result of a call: the answer, unless a callback was refused at a mark. -/
def Answer.result (a : Answer) : Except (Nat × Int) Unit → Int × Nat
  | .ok _ => (a.code, a.lastPos)
  | .error (m, r) => (r, m)

/-- **With exact integers a call is its answer**, the callbacks offered to the application one by one. -/
theorem Entry.parse_exact (entry : Entry) (t : Target) (h : Handler σ) {b : List Byte} (ht : t.ints.Small)
    (hf : t.ints.Faithful b.length) {lastPos : Nat} (hpos : lastPos ≤ b.length) (s : σ) :
    entry.parse t h b lastPos s =
      (.ok ((answer entry.line b lastPos).result (Veto.offer (consult h) (answer entry.line b lastPos).calls s).1),
        (Veto.offer (consult h) (answer entry.line b lastPos).calls s).2) := by
  obtain ⟨hmarks, hstop⟩ := read_marks entry.grammar b hpos
  have hvalue := read_valueLength entry.grammar b lastPos
  have hoffer := Veto.offer_map (g := consult h) (f := handOver t.ints h) Event.trim Stop.ret
    (fun x hx s => handOver_eq h (hf.mono (hvalue x hx)) s) s
  have hcalls : (read entry.line b lastPos).1.map (fun x => (x.1, x.2.trim)) =
    (answer entry.line b lastPos).calls := rfl
  rw [entry.parse_eq t ht h b hpos s, deliver, hoffer, hcalls]
  cases ho : Veto.offer (consult h) (answer entry.line b lastPos).calls s with
  | mk r s' =>
    rcases r with ⟨m, code⟩ | u
    · obtain ⟨pre, e, post, s₁, hsplit, -, -⟩ := Veto.offer_split ho
      have hm : m ≤ b.length := by
        have hmem : (m, e) ∈ (answer entry.line b lastPos).calls := by rw [hsplit]; simp
        obtain ⟨x, hx, hxe⟩ := List.mem_map.1 hmem
        rw [← (Prod.mk.inj hxe).1]
        exact hmarks x hx
      simp only [Except.mapError, verdict, Answer.result, hf.store hm]
    · simp only [Except.mapError, verdict, Answer.result]
      unfold answer
      rcases hr : (read entry.line b lastPos).2 with s | ⟨⟨e, m⟩ | n, rest⟩
      · rw [hr] at hstop
        simp only [stopMark] at hstop
        simp only [answerCode, storedMark, outcomeCode, stopMark, hf.store hstop]
      · rw [hr] at hstop
        simp only [stopMark] at hstop
        simp only [answerCode, storedMark, outcomeCode, stopMark, hf.store hstop]
      · rw [hr] at hstop
        simp only [stopMark] at hstop
        have hwrap : t.ints.wrap n = n := hf.wrap n (by omega) (by exact_mod_cast hstop)
        simp only [answerCode, storedMark, outcomeCode, stopMark, hf.store hstop, hwrap]

/-! ## Handlers that never reject, and the log of a call -/

/-- An accepted offering: nothing is refused where nothing is ever refused. -/
theorem consult_accepts {h : Handler σ} (hn : h.NeverRejects) (e : Event Slice) (s : σ) :
    ∃ s', consult h e s = (.ok ⟨⟩, s') := by
  unfold consult
  by_cases hm : h.has e.member = true
  · rw [if_pos hm, if_neg (Int.not_lt.2 (hn e s hm))]
    exact ⟨_, rfl⟩
  · rw [if_neg hm]
    exact ⟨s, rfl⟩

/-- What a call leaves behind: its result, the state of the application, and the callbacks made with the
answers they got. -/
structure Report (σ : Type) where
  result : Except Fault (Int × Nat)
  state : σ
  log : List (Event Slice × Int)

def Report.calls (r : Report σ) : List (Event Slice) := r.log.map Prod.fst

/-- The returned code. -/
def Report.code (r : Report σ) : Except Fault Int := r.result.map Prod.fst

/-- A call of an entry point, on a buffer of the real program. -/
def Entry.observe (entry : Entry) (simd : Simd) (h : Handler σ) (b : List Byte) (lastPos : Nat) (s : σ) : Report σ :=
  let r := entry.parse ⟨simd, Ints.d⟩ h.logged b lastPos (s, [])
  ⟨r.1, r.2.1, r.2.2⟩

/-- A call on the integers of `t`; `observe` is the one on those of D. -/
def Entry.observeOn (entry : Entry) (t : Target) (h : Handler σ) (b : List Byte) (lastPos : Nat) (s : σ) : Report σ :=
  let r := entry.parse t h.logged b lastPos (s, [])
  ⟨r.1, r.2.1, r.2.2⟩

/-- The callbacks that reach a handler. -/
def Handler.hears (h : Handler σ) (es : List (Event Slice)) : List (Event Slice) := es.filter fun e => h.has e.member

theorem Entry.observe_eq (entry : Entry) (simd : Simd) (h : Handler σ) {b : List Byte} (hb : b.length < 2 ^ 31)
    {lastPos : Nat} (hpos : lastPos ≤ b.length) (s : σ) :
    entry.observe simd h b lastPos s =
      ⟨.ok ((answer entry.line b lastPos).result
          (Veto.offer (consult h.logged) (answer entry.line b lastPos).calls (s, [])).1),
        (Veto.offer (consult h.logged) (answer entry.line b lastPos).calls (s, [])).2.1,
        (Veto.offer (consult h.logged) (answer entry.line b lastPos).calls (s, [])).2.2⟩ := by
  have hparse := entry.parse_exact ⟨simd, Ints.d⟩ h.logged Ints.d_small (Ints.d_faithful hb) hpos (s, [])
  simp only [Entry.observe, hparse]

/-- What one callback adds to the log. -/
theorem consult_log (h : Handler σ) (e : Event Slice) (s : σ × List (Event Slice × Int)) :
    (consult h.logged e s).2.2.map Prod.fst = s.2.map Prod.fst ++ h.hears [e] := by
  unfold consult Handler.hears
  by_cases hm : h.has e.member = true
  · have hm' : h.logged.has e.member = true := hm
    rw [if_pos hm']
    split <;> simp [Handler.logged, hm]
  · have hm' : ¬ h.logged.has e.member = true := hm
    rw [if_neg hm']
    simp [hm]

/-- An accepted callback keeps a log without negative answers. -/
theorem consult_nonneg {h : Handler σ} {e : Event Slice} {s s' : σ × List (Event Slice × Int)} {u : Unit}
    (hs : ∀ x ∈ s.2, 0 ≤ x.2) (hc : consult h.logged e s = (.ok u, s')) : ∀ x ∈ s'.2, 0 ≤ x.2 := by
  unfold consult at hc
  split_ifs at hc with hm hr
  · cases (Prod.mk.inj hc).1
  · rw [← (Prod.mk.inj hc).2]
    intro x hx
    rcases List.mem_append.1 hx with hx | hx
    · exact hs x hx
    · rw [List.mem_singleton.1 hx]
      exact Int.not_lt.1 hr
  · rw [← (Prod.mk.inj hc).2]
    exact hs

/-- A refused callback is the last entry of the log. -/
theorem consult_refused {h : Handler σ} {e : Event Slice} {s s' : σ × List (Event Slice × Int)} {r : Int}
    (hc : consult h.logged e s = (.error r, s')) : h.has e.member = true ∧ r < 0 ∧ s'.2 = s.2 ++ [(e, r)] := by
  unfold consult at hc
  split_ifs at hc with hm hr
  · obtain ⟨h1, rfl⟩ := Prod.mk.inj hc
    obtain rfl := Except.error.inj h1
    exact ⟨hm, hr, rfl⟩
  · cases (Prod.mk.inj hc).1
  · cases (Prod.mk.inj hc).1

theorem hears_flatMap (h : Handler σ) (calls : List (Nat × Event Slice)) :
    (calls.flatMap fun x => h.hears [x.2]) = h.hears (calls.map Prod.snd) := by
  induction calls with
  | nil => rfl
  | cons x calls ih =>
    rw [List.flatMap_cons, ih, List.map_cons]
    unfold Handler.hears
    rw [← List.filter_append]
    rfl

/-- An accepted offering has been logged as heard. -/
theorem offer_heard {h : Handler σ} {calls : List (Nat × Event Slice)} {s s' : σ × List (Event Slice × Int)} {u : Unit}
    (ho : Veto.offer (consult h.logged) calls s = (.ok u, s')) :
    s'.2.map Prod.fst = s.2.map Prod.fst ++ h.hears (calls.map Prod.snd) := by
  rw [← hears_flatMap]
  exact Veto.offer_log (fun t => t.2.map Prod.fst) (fun e => h.hears [e]) (fun x _ t => consult_log h x.2 t) ho

/-- **What a call does to any application**: every callback it has is accepted, and the result is the answer;
or the log ends with the first negative answer, which is returned together with the mark of that callback. -/
theorem Entry.observe_spec (entry : Entry) (simd : Simd) (h : Handler σ) {b : List Byte} (hb : b.length < 2 ^ 31)
    {lastPos : Nat} (hpos : lastPos ≤ b.length) (s : σ) :
    ((∀ x ∈ (entry.observe simd h b lastPos s).log, 0 ≤ x.2) ∧
        (entry.observe simd h b lastPos s).calls = h.hears (answer entry.line b lastPos).events ∧
        (entry.observe simd h b lastPos s).result =
          .ok ((answer entry.line b lastPos).code, (answer entry.line b lastPos).lastPos)) ∨
      ∃ pre m e post log r, (answer entry.line b lastPos).calls = pre ++ (m, e) :: post ∧ h.has e.member = true ∧
        (entry.observe simd h b lastPos s).log = log ++ [(e, r)] ∧ r < 0 ∧ (∀ x ∈ log, 0 ≤ x.2) ∧
        log.map Prod.fst = h.hears (pre.map Prod.snd) ∧ (entry.observe simd h b lastPos s).result = .ok (r, m) := by
  rw [entry.observe_eq simd h hb hpos s]
  have hnonneg : ∀ outs : List (Nat × Event Slice), ∀ x ∈ outs, ∀ (t t' : σ × List (Event Slice × Int)) (u : Unit),
      (∀ y ∈ t.2, 0 ≤ y.2) → consult h.logged x.2 t = (.ok u, t') → ∀ y ∈ t'.2, 0 ≤ y.2 :=
    fun _ _ _ _ _ _ ht hc => consult_nonneg ht hc
  cases ho : Veto.offer (consult h.logged) (answer entry.line b lastPos).calls (s, []) with
  | mk res s' =>
    rcases res with ⟨m, r⟩ | u
    · right
      obtain ⟨pre, e, post, s₁, hsplit, hpre, he⟩ := Veto.offer_split ho
      obtain ⟨hm, hr, hs'⟩ := consult_refused he
      refine ⟨pre, m, e, post, s₁.2, r, hsplit, hm, hs', hr, ?_, ?_, rfl⟩
      · exact Veto.offer_preserves (hnonneg pre) (fun y hy => by cases hy) hpre
      · exact offer_heard hpre
    · left
      refine ⟨?_, ?_, rfl⟩
      · exact Veto.offer_preserves (hnonneg _) (fun y hy => by cases hy) ho
      · exact offer_heard ho

/-- **With callbacks that never reject** a call on exact integers returns its answer and makes exactly its
callbacks. -/
theorem Entry.observeOn_accepting (entry : Entry) (t : Target) {h : Handler σ} (hn : h.NeverRejects) {b : List Byte}
    (ht : t.ints.Small) (hf : t.ints.Faithful b.length) {lastPos : Nat} (hpos : lastPos ≤ b.length) (s : σ) :
    (entry.observeOn t h b lastPos s).result =
        .ok ((answer entry.line b lastPos).code, (answer entry.line b lastPos).lastPos) ∧
      (entry.observeOn t h b lastPos s).calls = h.hears (answer entry.line b lastPos).events := by
  have hlogged : h.logged.NeverRejects := fun e t hm => hn e t.1 hm
  have haccepts : ∀ x ∈ (answer entry.line b lastPos).calls, ∀ t, ∃ t', consult h.logged x.2 t = (.ok ⟨⟩, t') :=
    fun x _ t => consult_accepts hlogged x.2 t
  obtain ⟨s', ho⟩ := Veto.offer_accepting haccepts (s, [])
  have hparse := entry.parse_exact t h.logged ht hf hpos (s, [])
  simp only [Entry.observeOn, hparse, ho]
  exact ⟨rfl, offer_heard ho⟩

theorem Entry.observe_accepting (entry : Entry) (simd : Simd) {h : Handler σ} (hn : h.NeverRejects) {b : List Byte}
    (hb : b.length < 2 ^ 31) {lastPos : Nat} (hpos : lastPos ≤ b.length) (s : σ) :
    (entry.observe simd h b lastPos s).result =
        .ok ((answer entry.line b lastPos).code, (answer entry.line b lastPos).lastPos) ∧
      (entry.observe simd h b lastPos s).calls = h.hears (answer entry.line b lastPos).events :=
  entry.observeOn_accepting ⟨simd, Ints.d⟩ hn Ints.d_small (Ints.d_faithful hb) hpos s

theorem Entry.observe_code (entry : Entry) (simd : Simd) {h : Handler σ} (hn : h.NeverRejects) {b : List Byte}
    (hb : b.length < 2 ^ 31) {lastPos : Nat} (hpos : lastPos ≤ b.length) (s : σ) :
    (entry.observe simd h b lastPos s).code = .ok (answer entry.line b lastPos).code := by
  rw [Report.code, (entry.observe_accepting simd hn hb hpos s).1]
  rfl

/-- The bytes of a text. -/
def ascii (text : String) : List Byte := text.toList.map fun c => UInt8.ofNat c.toNat

/-- A word that is spelled out. -/
def word {P : Byte → Bool} (text : String) (hne : ascii text ≠ []) (hall : (ascii text).all P = true) : Word P :=
  ⟨ascii text, hne, List.all_eq_true.1 hall⟩

end Httparsed

import Httparsed.Grammar

/-!
# What the reader has read

For every state of the reader, the bytes that lead there and the callbacks made on the way, as phrases of
the grammar: `RequestState.Reads`, `StatusState.Reads`, `HeaderState.Reads`. One step preserves each of them
(`requestStep_preserved`, …), so the invariant rule turns them into facts about runs: a start line or a
header section that was read to its end is a phrase of the grammar, and one that was not is the beginning
of one.
-/

namespace Httparsed

open Transducer Grammar

/-! ## Request line -/

/-- Having read `w` from offset `p` on and made the calls `o`. -/
def RequestState.Reads (p : Nat) (w : List Byte) (o : List (Event Slice)) : RequestState → Prop
  | .method acc => acc = ⟨p, w⟩ ∧ (∀ c ∈ w, tokenByte c = true) ∧ o = []
  | .methodSpaces => ∃ (m : Word tokenByte) (g : Spaces), w = m.bytes ++ g.bytes ∧ o = [.onMethod ⟨p, m.bytes⟩]
  | .uri acc => ∃ (m : Word tokenByte) (g : Spaces) (u : Word uriByte), w = m.bytes ++ g.bytes ++ u.bytes ∧
      acc = ⟨p + (m.bytes ++ g.bytes).length, u.bytes⟩ ∧ o = [.onMethod ⟨p, m.bytes⟩]
  | .uriSpaces => ∃ (m : Word tokenByte) (g : Spaces) (u : Word uriByte) (g' : Spaces),
      w = m.bytes ++ g.bytes ++ u.bytes ++ g'.bytes ∧
      o = [.onMethod ⟨p, m.bytes⟩, .onUri ⟨p + (m.bytes ++ g.bytes).length, u.bytes⟩]
  | .version acc => ∃ (m : Word tokenByte) (g : Spaces) (u : Word uriByte) (g' : Spaces) (v : Word versionByte),
      w = m.bytes ++ g.bytes ++ u.bytes ++ g'.bytes ++ v.bytes ∧
      acc = ⟨p + (m.bytes ++ g.bytes ++ u.bytes ++ g'.bytes).length, v.bytes⟩ ∧
      o = [.onMethod ⟨p, m.bytes⟩, .onUri ⟨p + (m.bytes ++ g.bytes).length, u.bytes⟩]
  | .versionCR => ∃ (m : Word tokenByte) (g : Spaces) (u : Word uriByte) (g' : Spaces) (v : Word versionByte),
      w = m.bytes ++ g.bytes ++ u.bytes ++ g'.bytes ++ v.bytes ++ [CR] ∧
      o = [.onMethod ⟨p, m.bytes⟩, .onUri ⟨p + (m.bytes ++ g.bytes).length, u.bytes⟩,
        .onVersion ⟨p + (m.bytes ++ g.bytes ++ u.bytes ++ g'.bytes).length, v.bytes⟩]

section

variable {p : Nat} {w : List Byte} {o o' : List (Event Slice)} {s s' : RequestState} {c : Byte}

/-- One step of the request line reads on. -/
theorem requestStep_reads (hi : s.Reads p w o) (hs : requestStep (p + w.length) s c = (o', .more s')) :
    s'.Reads p (w ++ [c]) (o ++ o') := by
  cases s with
  | method acc =>
    obtain ⟨rfl, hall, rfl⟩ := hi
    simp only [requestStep, stepMethod] at hs
    split_ifs at hs with h1 h2 h3 <;> cases hs
    · refine ⟨rfl, ?_, rfl⟩
      intro d hd
      rcases List.mem_append.1 hd with hd | hd
      · exact hall d hd
      · rw [List.mem_singleton.1 hd]; exact h1
    · exact ⟨⟨w, h3, hall⟩, Word.single SP rfl, by rw [h2]; rfl, rfl⟩
  | methodSpaces =>
    obtain ⟨m, g, rfl, rfl⟩ := hi
    simp only [requestStep, stepUri] at hs
    split_ifs at hs with h1 h2 h3 <;> cases hs
    · subst h2
      exact ⟨m, g.push SP rfl, by simp, rfl⟩
    · exact ⟨m, g, Word.single c h3, rfl, rfl, rfl⟩
  | uri acc =>
    obtain ⟨m, g, u, rfl, rfl, rfl⟩ := hi
    simp only [requestStep, stepUri] at hs
    split_ifs at hs with h1 h2 <;> cases hs
    · exact ⟨m, g, u.push c h1, by simp, rfl, rfl⟩
    · subst h2
      exact ⟨m, g, u, Word.single SP rfl, rfl, rfl⟩
  | uriSpaces =>
    obtain ⟨m, g, u, g', rfl, rfl⟩ := hi
    simp only [requestStep, stepVersion] at hs
    split_ifs at hs with h1 h2 h3 <;> cases hs
    · subst h2
      exact ⟨m, g, u, g'.push SP rfl, by simp, rfl⟩
    · exact ⟨m, g, u, g', Word.single c h3, rfl, rfl, rfl⟩
    · exact absurd (Or.inl ‹_›) h1
  | version acc =>
    obtain ⟨m, g, u, g', v, rfl, rfl, rfl⟩ := hi
    simp only [requestStep, stepVersion] at hs
    split_ifs at hs with h1 h2 <;> cases hs
    · exact ⟨m, g, u, g', v.push c h1, by simp, rfl, rfl⟩
    · subst h2
      exact ⟨m, g, u, g', v, rfl, rfl⟩
  | versionCR =>
    simp only [requestStep] at hs
    split_ifs at hs <;> cases hs

/-- The byte that ends a request line completes a phrase. -/
theorem requestStep_phrase (hi : s.Reads p w o) {u : PUnit}
    (hs : requestStep (p + w.length) s c = (o', .halt (.ok u))) :
    ∃ l : RequestLine, w ++ [c] = l.bytes ∧ o ++ o' = l.events p := by
  cases s with
  | method acc =>
    simp only [requestStep, stepMethod] at hs
    split_ifs at hs <;> cases hs
  | methodSpaces =>
    simp only [requestStep, stepUri] at hs
    split_ifs at hs <;> cases hs
  | uri acc =>
    simp only [requestStep, stepUri] at hs
    split_ifs at hs <;> cases hs
  | uriSpaces =>
    simp only [requestStep, stepVersion] at hs
    split_ifs at hs with h1 <;> cases hs
    exact absurd (Or.inr ‹_›) h1
  | version acc =>
    obtain ⟨m, g, u, g', v, rfl, rfl, rfl⟩ := hi
    simp only [requestStep, stepVersion] at hs
    split_ifs at hs with h1 h2 h3 <;> cases hs
    subst h3
    exact ⟨⟨m, g, u, g', v, .lf⟩, rfl, rfl⟩
  | versionCR =>
    obtain ⟨m, g, u, g', v, rfl, rfl⟩ := hi
    simp only [requestStep] at hs
    split_ifs at hs with h1 <;> cases hs
    subst h1
    exact ⟨⟨m, g, u, g', v, .crlf⟩, by simp [RequestLine.bytes, Eol.bytes], rfl⟩

end

/-! ## Status line -/

theorem codeValue_eq_some {bs : List Byte} {n : Int} (h : codeValue bs = some n) :
    ∃ k : Code, bs = k.bytes ∧ n = k.value := by
  unfold codeValue at h
  split at h
  · split_ifs at h with hd
    simp only [Bool.and_eq_true] at hd
    exact ⟨⟨_, _, _, hd.1.1, hd.1.2, hd.2⟩, rfl, (Option.some.inj h).symm⟩
  · cases h

theorem codeValue_bytes (k : Code) : codeValue k.bytes = some k.value := by
  simp only [Code.bytes, codeValue, k.digit₁, k.digit₂, k.digit₃, Bool.and_self, ↓reduceIte, Code.value]

/-- Having read `w` from offset `p` on and made the calls `o`. -/
def StatusState.Reads (p : Nat) (w : List Byte) (o : List (Event Slice)) : StatusState → Prop
  | .version acc => acc = ⟨p, w⟩ ∧ (∀ c ∈ w, versionByte c = true) ∧ o = []
  | .versionSpaces => ∃ (v : Word versionByte) (g : Spaces), w = v.bytes ++ g.bytes ∧ o = [.onVersion ⟨p, v.bytes⟩]
  | .code acc => ∃ (v : Word versionByte) (g : Spaces) (c : Byte) (cs : List Byte),
      w = v.bytes ++ g.bytes ++ acc.bytes ∧ acc.ptr = p + (v.bytes ++ g.bytes).length ∧
      acc.bytes = c :: cs ∧ c ≠ SP ∧ c ≠ CR ∧ c ≠ LF ∧ cs.length ≤ 2 ∧ o = [.onVersion ⟨p, v.bytes⟩]
  | .text acc => ∃ (v : Word versionByte) (g : Spaces) (k : Code) (t : Word textByte),
      w = v.bytes ++ g.bytes ++ k.bytes ++ t.bytes ∧ (∀ c ∈ t.bytes.head?, c = SP) ∧
      acc = ⟨p + (v.bytes ++ g.bytes ++ k.bytes).length, t.bytes⟩ ∧
      o = [.onVersion ⟨p, v.bytes⟩, .onStatus k.value]
  | .textCR => ∃ (v : Word versionByte) (g : Spaces) (k : Code) (t : Text textByte),
      w = v.bytes ++ g.bytes ++ k.bytes ++ t.bytes ++ [CR] ∧ (∀ c ∈ t.bytes.head?, c = SP) ∧
      o = [.onVersion ⟨p, v.bytes⟩, .onStatus k.value] ++
        statusMsgEvents ⟨p + (v.bytes ++ g.bytes ++ k.bytes).length, t.bytes⟩

theorem stepCode_nil (p : Nat) (c : Byte) : stepCode p ⟨p, []⟩ c = ([], .more (.code ⟨p, [c]⟩)) := rfl

/-- Three digits and a byte that may follow them: the code is reported, and the byte starts the text. -/
theorem stepCode_digits {p : Nat} {acc : Slice} {k : Code} (h : acc.bytes = k.bytes) {c : Byte}
    (hc : c = SP ∨ c = CR ∨ c = LF) :
    stepCode p acc c = (.onStatus k.value :: (stepText ⟨p, []⟩ c).1, (stepText ⟨p, []⟩ c).2) := by
  unfold stepCode
  have hno : ¬ (c ≠ SP ∧ c ≠ CR ∧ c ≠ LF) := by
    rintro ⟨h1, h2, h3⟩
    rcases hc with hc | hc | hc
    · exact h1 hc
    · exact h2 hc
    · exact h3 hc
  rw [if_neg (by rw [h]; exact Nat.lt_irrefl 3), h, codeValue_bytes]
  exact if_neg hno

/-- What `stepCode` goes on with. -/
theorem stepCode_inv {p : Nat} {acc : Slice} {c : Byte} {o : List (Event Slice)}
    {n : Next StatusState (Except ParserError PUnit)} (h : stepCode p acc c = (o, n)) :
    (acc.bytes.length < 3 ∧ o = [] ∧ n = .more (.code (acc.push c))) ∨
      (∃ e, n = .halt (.error e)) ∨
      ∃ k : Code, acc.bytes = k.bytes ∧ (c = SP ∨ c = CR ∨ c = LF) ∧
        o = .onStatus k.value :: (stepText ⟨p, []⟩ c).1 ∧ n = (stepText ⟨p, []⟩ c).2 := by
  unfold stepCode at h
  by_cases hlen : acc.bytes.length < 3
  · rw [if_pos hlen] at h
    cases h
    exact Or.inl ⟨hlen, rfl, rfl⟩
  · rw [if_neg hlen] at h
    right
    cases hv : codeValue acc.bytes with
    | none =>
      rw [hv] at h
      cases h
      exact Or.inl ⟨_, rfl⟩
    | some k' =>
      obtain ⟨k, hk, rfl⟩ := codeValue_eq_some hv
      rw [hv] at h
      by_cases hc : c ≠ SP ∧ c ≠ CR ∧ c ≠ LF
      · simp only [hc, ne_eq, not_false_eq_true, and_self, ↓reduceIte] at h
        cases h
        exact Or.inl ⟨_, rfl⟩
      · have hc' : c = SP ∨ c = CR ∨ c = LF := by tauto
        simp only [hc, ↓reduceIte] at h
        cases h
        exact Or.inr ⟨k, hk, hc', rfl, rfl⟩

section

variable {p : Nat} {w : List Byte} {o o' : List (Event Slice)} {s s' : StatusState} {c : Byte}

/-- One step of the status line reads on. -/
theorem statusStep_reads (hi : s.Reads p w o) (hs : statusStep (p + w.length) s c = (o', .more s')) :
    s'.Reads p (w ++ [c]) (o ++ o') := by
  cases s with
  | version acc =>
    obtain ⟨rfl, hall, rfl⟩ := hi
    simp only [statusStep, stepStatusVersion] at hs
    split_ifs at hs with h1 h2 h3 <;> cases hs
    · refine ⟨rfl, ?_, rfl⟩
      intro d hd
      rcases List.mem_append.1 hd with hd | hd
      · exact hall d hd
      · rw [List.mem_singleton.1 hd]; exact h1
    · exact ⟨⟨w, h3, hall⟩, Word.single SP rfl, by rw [h2]; rfl, rfl⟩
  | versionSpaces =>
    obtain ⟨v, g, rfl, rfl⟩ := hi
    simp only [statusStep, stepCode_nil] at hs
    split_ifs at hs with h1 h2 <;> cases hs
    · subst h2
      exact ⟨v, g.push SP rfl, by simp, rfl⟩
    · exact ⟨v, g, c, [], rfl, rfl, rfl, h2, fun h => h1 (Or.inl h), fun h => h1 (Or.inr h), Nat.zero_le 2, rfl⟩
  | code acc =>
    obtain ⟨v, g, d, ds, rfl, hptr, hacc, hd1, hd2, hd3, hds, rfl⟩ := hi
    rcases stepCode_inv hs with ⟨h1, rfl, h2⟩ | ⟨e, h2⟩ | ⟨k, hk, hc, rfl, h2⟩
    · cases h2
      refine ⟨v, g, d, ds ++ [c], by simp, hptr, by simp [hacc], hd1, hd2, hd3, ?_, rfl⟩
      rw [hacc] at h1
      simp only [List.length_cons, List.length_append, List.length_nil] at h1 ⊢
      omega
    · cases h2
    · obtain ⟨a, bs⟩ := acc
      subst hk
      rcases hc with rfl | rfl | rfl
      · cases h2
        exact ⟨v, g, k, Word.single SP (by decide), rfl, by simp, rfl, rfl⟩
      · cases h2
        exact ⟨v, g, k, ⟨[], by simp⟩, by simp, by simp, rfl⟩
      · cases h2
  | text acc =>
    obtain ⟨v, g, k, t, rfl, ht, rfl, rfl⟩ := hi
    simp only [statusStep, stepText] at hs
    split_ifs at hs with h1 h2 h3 <;> cases hs
    · refine ⟨v, g, k, t.push c h1, by simp, ?_, rfl, rfl⟩
      rw [Word.push_bytes, List.head?_append_of_ne_nil _ t.nonempty]
      exact ht
    · subst h2
      exact ⟨v, g, k, ⟨t.bytes, t.all⟩, rfl, ht, rfl⟩
  | textCR =>
    simp only [statusStep] at hs
    split_ifs at hs <;> cases hs

/-- The byte that ends a status line completes a phrase. -/
theorem statusStep_phrase (hi : s.Reads p w o) {u : PUnit} (hs : statusStep (p + w.length) s c = (o', .halt (.ok u))) :
    ∃ l : StatusLine, w ++ [c] = l.bytes ∧ o ++ o' = l.events p := by
  cases s with
  | version acc =>
    simp only [statusStep, stepStatusVersion] at hs
    split_ifs at hs <;> cases hs
  | versionSpaces =>
    simp only [statusStep, stepCode_nil] at hs
    split_ifs at hs <;> cases hs
  | code acc =>
    obtain ⟨v, g, d, ds, rfl, -, -, -, -, -, -, rfl⟩ := hi
    rcases stepCode_inv hs with ⟨-, -, h2⟩ | ⟨e, h2⟩ | ⟨k, hk, hc, rfl, h2⟩
    · cases h2
    · cases h2
    · obtain ⟨a, bs⟩ := acc
      subst hk
      rcases hc with rfl | rfl | rfl
      · cases h2
      · cases h2
      · exact ⟨⟨v, g, k, ⟨[], by simp⟩, by simp, .lf⟩, by simp [StatusLine.bytes, Eol.bytes], rfl⟩
  | text acc =>
    obtain ⟨v, g, k, t, rfl, ht, rfl, rfl⟩ := hi
    simp only [statusStep, stepText] at hs
    split_ifs at hs with h1 h2 h3 <;> cases hs
    subst h3
    exact ⟨⟨v, g, k, ⟨t.bytes, t.all⟩, ht, .lf⟩, rfl, rfl⟩
  | textCR =>
    obtain ⟨v, g, k, t, rfl, ht, rfl⟩ := hi
    simp only [statusStep] at hs
    split_ifs at hs with h1 <;> cases hs
    subst h1
    exact ⟨⟨v, g, k, t, ht, .crlf⟩, by simp [StatusLine.bytes, Eol.bytes], by rw [List.append_nil]; rfl⟩

end

/-! ## Header lines -/

/-- The callback for a line as the reader makes it, its value not yet stripped at the end. -/
def rawEvent (p : Nat) (x : Content) : Event Slice := .onHeader (x.name p) (x.rawValue p)

/-- The callbacks for lines that start at offset `p`, each with the offset of its line. -/
def lineCalls (p : Nat) : List Line → List (Nat × Event Slice)
  | [] => []
  | l :: ls => (p, rawEvent p l.content) :: lineCalls (p + l.bytes.length) ls

theorem linesBytes_append (a b : List Line) : linesBytes (a ++ b) = linesBytes a ++ linesBytes b :=
  List.flatMap_append

theorem lineCalls_append (p : Nat) (a b : List Line) :
    lineCalls p (a ++ b) = lineCalls p a ++ lineCalls (p + (linesBytes a).length) b := by
  induction a generalizing p with
  | nil => rfl
  | cons l a ih =>
    simp only [List.cons_append, lineCalls, ih, linesBytes, List.flatMap_cons, List.length_append, Nat.add_assoc]

/-- A callback for a line belongs to one of the lines, and is tagged with the start of that line. -/
theorem lineCalls_split {p : Nat} {ls : List Line} {x : Nat × Event Slice} {pre post : List (Nat × Event Slice)}
    (h : lineCalls p ls = pre ++ x :: post) :
    ∃ ls₁ l ls₂, ls = ls₁ ++ l :: ls₂ ∧ pre = lineCalls p ls₁ ∧
      x = (p + (linesBytes ls₁).length, rawEvent (p + (linesBytes ls₁).length) l.content) := by
  induction ls generalizing p pre with
  | nil => simp [lineCalls] at h
  | cons l ls ih =>
    rw [lineCalls] at h
    cases pre with
    | nil =>
      obtain ⟨rfl, -⟩ := List.cons.inj h
      exact ⟨[], l, ls, rfl, rfl, rfl⟩
    | cons y pre =>
      obtain ⟨rfl, htail⟩ := List.cons.inj h
      obtain ⟨ls₁, l', ls₂, rfl, rfl, rfl⟩ := ih htail
      have hlen : (linesBytes (l :: ls₁)).length = l.bytes.length + (linesBytes ls₁).length := by
        simp only [linesBytes, List.flatMap_cons, List.length_append]
      exact ⟨l :: ls₁, l', ls₂, rfl, rfl, by rw [hlen, Nat.add_assoc]⟩

/-- Having read `tail` of a line that starts at offset `m`; `later` says whether a line precedes it. -/
def HeaderPhase.Reads (m : Nat) (later : Bool) (tail : List Byte) : HeaderPhase → Prop
  | .lineStart hasHeader => tail = [] ∧ hasHeader = later
  | .closingCR => tail = [CR]
  | .name acc => ∃ n : Word tokenByte, tail = n.bytes ∧ acc = ⟨m, n.bytes⟩
  | .blanks nm => ∃ (n : Word tokenByte) (raw : Text textByte), (∀ c ∈ raw.bytes, blank c = true) ∧
      tail = (Content.named n raw).bytes ∧ nm = ⟨m, n.bytes⟩
  | .value nm acc => ∃ x : Content, (later = true ∨ x.isNamed = true) ∧ tail = x.bytes ∧
      nm = x.name m ∧ acc = x.rawValue m ∧ acc.bytes ≠ []
  | .valueCR nm acc => ∃ x : Content, (later = true ∨ x.isNamed = true) ∧ tail = x.bytes ++ [CR] ∧
      nm = x.name m ∧ acc = x.rawValue m

/-- A content with a further byte of text. -/
def extend (x : Content) (c : Byte) (h : textByte c = true) : Content :=
  match x with
  | .named n raw => .named n (raw.push c h)
  | .continued raw hs => .continued (raw.push c h) (by
      rw [Word.push_bytes, List.head?_append_of_ne_nil _ raw.nonempty]
      exact hs)

section

variable {m : Nat} {later : Bool} {tail : List Byte} {x : Content} {c : Byte} {o : List (Event Slice)}

theorem extend_bytes (h : textByte c = true) : (extend x c h).bytes = x.bytes ++ [c] := by
  cases x with
  | named n raw => simp [extend, Content.bytes]
  | continued raw hs => simp [extend, Content.bytes]

theorem extend_name (h : textByte c = true) (m : Nat) : (extend x c h).name m = x.name m := by
  cases x <;> rfl

theorem extend_isNamed (h : textByte c = true) : (extend x c h).isNamed = x.isNamed := by
  cases x <;> rfl

theorem extend_rawValue (h : textByte c = true) (hv : (x.rawValue m).bytes ≠ [] ∨ blank c = false) :
    (extend x c h).rawValue m = (x.rawValue m).push c := by
  cases x with
  | named n raw => exact Slice.stripLeading_push hv
  | continued raw hs => rfl

/-- Nothing but blanks after the colon: the value is empty so far. -/
theorem rawValue_blank {n : Word tokenByte} {raw : Text textByte} (h : ∀ c ∈ raw.bytes, blank c = true) :
    (Content.named n raw).rawValue m = ⟨m + (Content.named n raw).bytes.length, []⟩ := by
  have hs : (⟨m + n.bytes.length + 1, raw.bytes⟩ : Slice).stripLeading blank =
      ⟨m + n.bytes.length + 1 + raw.bytes.length, []⟩ := Slice.stripLeading_all h
  simp only [Content.rawValue, Content.bytes, hs, List.length_append, List.length_cons, Slice.mk.injEq, and_true]
  omega

/-- One step inside a value that has content `x` so far. -/
theorem stepValue_reads {acc : Slice} {phase : HeaderPhase} (hl : later = true ∨ x.isNamed = true)
    (hacc : acc = x.rawValue m) (hv : acc.bytes ≠ [] ∨ blank c = false)
    (hs : stepValue (x.name m) acc c = (o, .more phase)) : phase.Reads m later (x.bytes ++ [c]) := by
  subst hacc
  unfold stepValue at hs
  split_ifs at hs with h1 h2 <;> cases hs
  · refine ⟨extend x c h1, ?_, (extend_bytes h1).symm, (extend_name h1 m).symm, (extend_rawValue h1 hv).symm, by simp⟩
    rwa [extend_isNamed]
  · subst h2
    exact ⟨x, hl, rfl, rfl, rfl⟩

/-- The LF that ends a line whose content is `x`. -/
theorem stepValue_line {name : Option Slice} {acc : Slice} {v : LineEnd}
    (hs : stepValue name acc c = (o, .halt (.ok v))) :
    c = LF ∧ v = .header name acc := by
  unfold stepValue at hs
  split_ifs at hs with h1 h2 h3 <;> cases hs
  exact ⟨h3, rfl⟩

theorem blank_iff : blank c = true ↔ c = SP ∨ c = HT := by simp [blank]

theorem blank_false_iff : blank c = false ↔ ¬ (c = SP ∨ c = HT) := by
  rw [Bool.eq_false_iff, Ne, blank_iff]

theorem textByte_of_blank (h : blank c = true) : textByte c = true := by
  rcases blank_iff.1 h with rfl | rfl <;> decide

/-- One step of a header line reads on. -/
theorem lineStep_reads {phase phase' : HeaderPhase} (hi : phase.Reads m later tail)
    (hs : lineStep (m + tail.length) phase c = (o, .more phase')) : phase'.Reads m later (tail ++ [c]) := by
  cases phase with
  | lineStart hasHeader =>
    obtain ⟨rfl, rfl⟩ := hi
    simp only [lineStep, List.length_nil, Nat.add_zero] at hs
    split_ifs at hs with h1 h2 h3
    · cases hs
      subst h1
      rfl
    · cases hs
    · have hb := blank_iff.2 h3.2
      have ht := textByte_of_blank hb
      simp only [stepValue, ht, ↓reduceIte] at hs
      cases hs
      exact ⟨.continued (Word.single c ht) (by simpa using hb), Or.inl h3.1, rfl, rfl, rfl, List.cons_ne_nil _ _⟩
    · simp only [stepName] at hs
      split_ifs at hs with h4 h5 <;> cases hs
      · exact ⟨Word.single c h4, rfl, rfl⟩
  | closingCR =>
    simp only [lineStep] at hs
    split_ifs at hs <;> cases hs
  | name acc =>
    obtain ⟨n, rfl, rfl⟩ := hi
    simp only [lineStep, stepName] at hs
    split_ifs at hs with h1 h2 h3 <;> cases hs
    · exact ⟨n.push c h1, by simp, rfl⟩
    · subst h2
      exact ⟨n, ⟨[], by simp⟩, by simp, rfl, rfl⟩
  | blanks name =>
    obtain ⟨n, raw, hraw, rfl, rfl⟩ := hi
    simp only [lineStep] at hs
    split_ifs at hs with h1
    · cases hs
      have hb := blank_iff.2 h1
      refine ⟨n, raw.push c (textByte_of_blank hb), ?_, by simp [Content.bytes], rfl⟩
      intro d hd
      rcases List.mem_append.1 hd with hd | hd
      · exact hraw d hd
      · rw [List.mem_singleton.1 hd]; exact hb
    · refine stepValue_reads (x := .named n raw) (Or.inr rfl) ?_ (Or.inr ?_) hs
      · rw [rawValue_blank hraw]
      · exact blank_false_iff.2 h1
  | value name acc =>
    obtain ⟨x, hl, rfl, rfl, hacc, hne⟩ := hi
    exact stepValue_reads hl hacc (Or.inl hne) hs
  | valueCR name value =>
    simp only [lineStep] at hs
    split_ifs at hs <;> cases hs

/-- The byte that ends a line: the closing empty line, or the line end of a content. -/
theorem lineStep_line {phase : HeaderPhase} {v : LineEnd} (hi : phase.Reads m later tail)
    (hs : lineStep (m + tail.length) phase c = (o, .halt (.ok v))) :
    (v = .closing ∧ ∃ eol : Eol, tail ++ [c] = eol.bytes) ∨
      ∃ l : Line, (later = true ∨ l.content.isNamed = true) ∧ tail ++ [c] = l.bytes ∧
        v = .header (l.content.name m) (l.content.rawValue m) := by
  cases phase with
  | lineStart hasHeader =>
    obtain ⟨rfl, rfl⟩ := hi
    simp only [lineStep, List.length_nil, Nat.add_zero] at hs
    split_ifs at hs with h1 h2 h3
    · cases hs
    · cases hs
      subst h2
      exact Or.inl ⟨rfl, .lf, rfl⟩
    · exact absurd (stepValue_line hs).1 h2
    · simp only [stepName] at hs
      split_ifs at hs <;> cases hs
  | closingCR =>
    obtain rfl : tail = [CR] := hi
    simp only [lineStep] at hs
    split_ifs at hs with h1 <;> cases hs
    subst h1
    exact Or.inl ⟨rfl, .crlf, rfl⟩
  | name acc =>
    simp only [lineStep, stepName] at hs
    split_ifs at hs <;> cases hs
  | blanks nm =>
    obtain ⟨n, raw, hraw, rfl, rfl⟩ := hi
    simp only [lineStep] at hs
    split_ifs at hs
    · cases hs
    · obtain ⟨rfl, rfl⟩ := stepValue_line hs
      exact Or.inr ⟨⟨.named n raw, .lf⟩, Or.inr rfl, rfl, by rw [rawValue_blank hraw]; rfl⟩
  | value nm acc =>
    obtain ⟨x, hl, rfl, rfl, rfl, hne⟩ := hi
    obtain ⟨rfl, rfl⟩ := stepValue_line hs
    exact Or.inr ⟨⟨x, .lf⟩, hl, rfl, rfl⟩
  | valueCR nm acc =>
    obtain ⟨x, hl, rfl, rfl, rfl⟩ := hi
    simp only [lineStep] at hs
    split_ifs at hs with h1 <;> cases hs
    subst h1
    exact Or.inr ⟨⟨x, .crlf⟩, hl, by simp [Line.bytes, Eol.bytes], rfl⟩

end

/-- Having read `w` from offset `p` on: whole lines, all reported, and the beginning of a further one. -/
def HeaderState.Reads (p : Nat) (w : List Byte) (o : List (Nat × Event Slice)) (s : HeaderState) : Prop :=
  ∃ (ls : List Line) (tail : List Byte), Opens ls ∧ w = linesBytes ls ++ tail ∧ o = lineCalls p ls ∧
    s.mark = p + (linesBytes ls).length ∧ s.phase.Reads s.mark (!ls.isEmpty) tail

section

variable {p : Nat} {w : List Byte} {o o' : List (Nat × Event Slice)} {s s' : HeaderState} {c : Byte}

theorem opens_append {ls : List Line} {l : Line} (h : Opens ls)
    (hl : (!ls.isEmpty) = true ∨ l.content.isNamed = true) : Opens (ls ++ [l]) := by
  cases ls with
  | nil => simpa [Opens] using hl
  | cons a ls => exact h

theorem headerStart_reads (p : Nat) : (headerStart p).Reads p [] [] :=
  ⟨[], [], by simp [Opens], rfl, rfl, rfl, rfl, rfl⟩

/-- One step of the header section reads on. -/
theorem headerStep_reads (hi : s.Reads p w o) (hs : headerStep (p + w.length) s c = (o', .more s')) :
    s'.Reads p (w ++ [c]) (o ++ o') := by
  obtain ⟨m, phase⟩ := s
  obtain ⟨ls, tail, hopens, rfl, rfl, hm, hphase⟩ := hi
  simp only at hm hphase
  subst hm
  have hpos : p + (linesBytes ls ++ tail).length = p + (linesBytes ls).length + tail.length := by
    rw [List.length_append, Nat.add_assoc]
  rw [hpos] at hs
  rcases headerStep_more hs with ⟨o₁, phase', hl, rfl, rfl⟩ | ⟨o₁, nm, v, hl, rfl, rfl⟩
  · exact ⟨ls, tail ++ [c], hopens, by simp, by simp, rfl, lineStep_reads hphase hl⟩
  · rcases lineStep_line hphase hl with ⟨hv, -⟩ | ⟨l, hlater, hbytes, hv⟩
    · cases hv
    · cases hv
      have hlen : (linesBytes (ls ++ [l])).length = (linesBytes ls).length + tail.length + 1 := by
        rw [linesBytes_append, List.length_append, linesBytes, linesBytes, List.flatMap_singleton, ← hbytes]
        simp only [List.length_append, List.length_singleton, Nat.add_assoc]
      refine ⟨ls ++ [l], [], opens_append hopens hlater, ?_, ?_, ?_, rfl, ?_⟩
      · rw [linesBytes_append, linesBytes, linesBytes, List.flatMap_singleton, ← hbytes]
        simp
      · rw [lineCalls_append]
        rfl
      · rw [hlen]
        simp only [Nat.add_assoc]
      · simp

/-- The byte that ends the header section closes it with an empty line. -/
theorem headerStep_closing (hi : s.Reads p w o) {n : Nat}
    (hs : headerStep (p + w.length) s c = (o', .halt (.ok n))) :
    ∃ (ls : List Line) (eol : Eol), Opens ls ∧ w ++ [c] = linesBytes ls ++ eol.bytes ∧ o ++ o' = lineCalls p ls ∧
      n = p + (linesBytes ls ++ eol.bytes).length ∧ s.mark = p + (linesBytes ls).length := by
  obtain ⟨m, phase⟩ := s
  obtain ⟨ls, tail, hopens, rfl, rfl, hm, hphase⟩ := hi
  simp only at hm hphase
  subst hm
  have hpos : p + (linesBytes ls ++ tail).length = p + (linesBytes ls).length + tail.length := by
    rw [List.length_append, Nat.add_assoc]
  rw [hpos] at hs
  obtain ⟨rfl, rfl, o₁, hl⟩ := headerStep_ok hs
  rcases lineStep_line hphase hl with ⟨-, eol, heol⟩ | ⟨l, -, -, hv⟩
  · refine ⟨ls, eol, hopens, by rw [List.append_assoc, heol], by simp, ?_, rfl⟩
    rw [← heol]
    simp only [List.length_append, List.length_singleton, Nat.add_assoc]
  · cases hv

end

end Httparsed

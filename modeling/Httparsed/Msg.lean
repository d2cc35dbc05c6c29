import Httparsed.Callbacks
import Httparsed.Lib.Crash

/-!
# The message objects (httparsed.d:513-529, :628-668, bench/bench.d:243-275)

A message object stores what it is told: slices of the buffer, the status, the version and up to a fixed number
of headers. Two of its callbacks can stop the parser. `onVersion` of the `Msg` of the documentation and the
tests refuses anything but HTTP/1.d; and one header too many is an index out of range, which no return code
tells of.

| here | there |
| --- | --- |
| `parseHttpVersion`             | httparsed.d:519 |
| `Header`, `Message`            | what the structs of httparsed.d:631-667 and bench.d:243-275 share |
| `msgKind`, `benchKind`         | what is particular to `Msg` of the one and of the other |
| `Message.onX`, `receive`       | the callbacks, and the calls `m_msg.onX(…)` of the parser |
| `Entry.parseMsg`               | `parseRequest` / `parseResponse` of a `MsgParser!Msg` |

`Entry.parseMsg_eq` is the parser on a `Msg`: the answer to the buffer, its callbacks delivered to the object.
-/

namespace Httparsed

open Transducer Grammar

/-! ## `parseHttpVersion` -/

/-- `static foreach (i, c; "HTTP/1.") if (ver[i] != c) return …;`, from index `i` on -/
def expectVersion (ver : Slice) : Nat → List Byte → Except Stop PUnit
  | _, [] => .ok ⟨⟩
  | i, c :: cs => do
    let d ← ver.get i
    if d ≠ c then .error (.ret (err .invalidVersion)) else expectVersion ver (i + 1) cs

/-- `parseHttpVersion` (httparsed.d:519) -/
def parseHttpVersion (ver : Slice) : Except Stop Int :=
  if ver.length ≠ 8 then .error (.ret (err .invalidVersion))
  else do
    expectVersion ver 0 (ascii "HTTP/1.")
    let d ← ver.get 7
    if d < 0x30 ∨ 0x39 < d then .error (.ret (err .invalidVersion)) else .ok ((d.toNat : Int) - 0x30)

/-- What a function with early returns hands to its caller. -/
def returned : Except Stop Int → Except Fault Int
  | .ok v => .ok v
  | .error (.ret v) => .ok v
  | .error (.fault f) => .error f

/-- The minor version of HTTP/1.d. -/
def http1 (ver : List Byte) : Option Int :=
  match ver.getLast? with
  | some d => if ver = ascii "HTTP/1." ++ [d] ∧ isDigit d = true then some (digit d) else none
  | none => none

theorem http1_iff {ver : List Byte} {v : Int} :
    http1 ver = some v ↔ ∃ d, ver = ascii "HTTP/1." ++ [d] ∧ isDigit d = true ∧ v = digit d := by
  unfold http1
  constructor
  · intro h
    split at h
    · next d hlast =>
      split_ifs at h with hver
      exact ⟨d, hver.1, hver.2, (Option.some.inj h).symm⟩
    · cases h
  · rintro ⟨d, rfl, hd, rfl⟩
    rw [List.getLast?_append_of_ne_nil _ (List.cons_ne_nil _ _), List.getLast?_singleton]
    exact if_pos ⟨rfl, hd⟩

theorem http1_none_iff {ver : List Byte} :
    http1 ver = none ↔ ¬ ∃ d, ver = ascii "HTTP/1." ++ [d] ∧ isDigit d = true := by
  rw [← Option.not_isSome_iff_eq_none, Option.isSome_iff_exists]
  refine not_congr ⟨?_, ?_⟩
  · rintro ⟨v, hv⟩
    obtain ⟨d, hver, hd, -⟩ := http1_iff.1 hv
    exact ⟨d, hver, hd⟩
  · rintro ⟨d, hver, hd⟩
    exact ⟨digit d, http1_iff.2 ⟨d, hver, hd, rfl⟩⟩

theorem digit_nonneg {d : Byte} (h : isDigit d = true) : 0 ≤ digit d := by
  simp only [isDigit, Bool.and_eq_true, decide_eq_true_eq, UInt8.le_iff_toNat_le] at h
  have hle : (48 : Nat) ≤ d.toNat := h.1
  unfold digit
  omega

theorem http1_nonneg {ver : List Byte} {v : Int} (h : http1 ver = some v) : 0 ≤ v := by
  obtain ⟨d, -, hd, rfl⟩ := http1_iff.1 h
  exact digit_nonneg hd

/-- The comparison with `cs` from index `i` on comes to an end, and accepts the same bytes only. -/
theorem expectVersion_eq {ver : Slice} {i : Nat} {cs : List Byte} (h : i + cs.length ≤ ver.length) :
    expectVersion ver i cs =
      if cs <+: ver.bytes.drop i then .ok ⟨⟩ else .error (.ret (err .invalidVersion)) := by
  induction cs generalizing i with
  | nil =>
    rw [if_pos (List.nil_prefix)]
    rfl
  | cons c cs ih =>
    rw [List.length_cons] at h
    obtain ⟨d, ds, hdrop⟩ : ∃ d ds, ver.bytes.drop i = d :: ds := by
      apply List.exists_cons_of_ne_nil
      intro hnil
      have hlen := congrArg List.length hnil
      simp only [List.length_drop, List.length_nil, Slice.length] at hlen h
      omega
    rw [expectVersion, Slice.get_ok hdrop, ok_bind, hdrop]
    by_cases hd : c = d
    · subst hd
      rw [if_neg (not_not.2 rfl), ih (by omega), Slice.drop_succ hdrop]
      exact if_congr (by simp) rfl rfl
    · rw [if_pos fun h => hd h.symm, if_neg fun h => hd (List.cons_prefix_cons.1 h).1]

theorem not_digit_iff {d : Byte} : (d < 0x30 ∨ 0x39 < d) ↔ ¬ isDigit d = true := by
  simp only [isDigit, Bool.and_eq_true, decide_eq_true_eq, not_and_or, UInt8.not_le]

/-- **`parseHttpVersion` never traps**, and answers the minor version of HTTP/1.d or `invalidVersion`. -/
theorem parseHttpVersion_eq (ver : Slice) :
    returned (parseHttpVersion ver) = .ok ((http1 ver.bytes).getD (err .invalidVersion)) := by
  unfold parseHttpVersion
  by_cases hlen : ver.length = 8
  · rw [if_neg (not_not.2 hlen), expectVersion_eq (by rw [hlen]; decide), List.drop_zero]
    by_cases hpre : ascii "HTTP/1." <+: ver.bytes
    · obtain ⟨t, ht⟩ := hpre
      obtain ⟨d, rfl⟩ : ∃ d, t = [d] := by
        apply List.length_eq_one_iff.1
        have hlen' := congrArg List.length ht
        rw [List.length_append] at hlen'
        have h7 : (ascii "HTTP/1.").length = 7 := rfl
        have h8 : ver.bytes.length = 8 := hlen
        omega
      have hdrop : ver.bytes.drop 7 = [d] := by rw [← ht]; rfl
      rw [if_pos ⟨[d], ht⟩, ok_bind, Slice.get_ok hdrop, ok_bind]
      by_cases hd : isDigit d = true
      · rw [if_neg fun h => not_digit_iff.1 h hd, http1_iff.2 ⟨d, ht.symm, hd, rfl⟩]
        rfl
      · have hnone : http1 ver.bytes = none := by
          rw [http1_none_iff]
          rintro ⟨d', hver, hd'⟩
          rw [← ht] at hver
          obtain rfl : d = d' := by simpa using List.append_cancel_left hver
          exact hd hd'
        rw [if_pos (not_digit_iff.2 hd), hnone]
        rfl
    · have hnone : http1 ver.bytes = none := by
        rw [http1_none_iff]
        rintro ⟨d, hver, -⟩
        exact hpre ⟨[d], hver.symm⟩
      rw [if_neg hpre, hnone]
      rfl
  · have hnone : http1 ver.bytes = none := by
      rw [http1_none_iff]
      rintro ⟨d, hver, -⟩
      exact hlen (congrArg List.length hver)
    rw [if_pos hlen, hnone]
    rfl

/-! ## The objects -/

/-- `struct Header`; a slice that is `none` is `null`. -/
structure Header where
  name : Option Slice
  value : Option Slice
  deriving DecidableEq, Repr

/-- What the message objects differ in: the number of slots, and what `onVersion` makes of a version. What it accepts
and what it stores depend on the version alone. -/
structure MsgKind where
  slots : Nat
  Version : Type
  initial : Version
  onVersion : Slice → Except Fault (Int × Version)
  accepts : List Byte → Bool
  stored : Slice → Version
  onVersion_eq : ∀ ver : Slice,
    onVersion ver = .ok (if accepts ver.bytes = true then 0 else err .invalidVersion, stored ver)

/-- A message object, with as many of its slots in use as `m_headersLength` says. -/
@[ext] structure Message (k : MsgKind) where
  method : Option Slice
  uri : Option Slice
  version : k.Version
  status : Int
  statusMsg : Option Slice
  m_headers : Vector Header k.slots
  m_headersLength : Nat
  inRange : m_headersLength ≤ k.slots

namespace Message

variable {k : MsgKind}

/-- `Msg.init` -/
def init (k : MsgKind) : Message k :=
  ⟨none, none, k.initial, 0, none, Vector.replicate k.slots ⟨none, none⟩, 0, Nat.zero_le _⟩

def onMethod (m : Message k) (method : Slice) : Message k := { m with method := some method }

def onUri (m : Message k) (uri : Slice) : Message k := { m with uri := some uri }

def onVersion (m : Message k) (ver : Slice) : Except Fault (Int × Message k) := do
  let (r, version) ← k.onVersion ver
  .ok (r, { m with version := version })

def onHeader (m : Message k) (name : Option Slice) (value : Slice) : Except Fault (Message k) :=
  if h : m.m_headersLength < k.slots then
    .ok { m with
      m_headers := m.m_headers.set m.m_headersLength ⟨name, some value⟩
      m_headersLength := m.m_headersLength + 1
      inRange := h }
  else .error .range

def onStatus (m : Message k) (status : Int) : Message k := { m with status := status }

def onStatusMsg (m : Message k) (statusMsg : Slice) : Message k := { m with statusMsg := some statusMsg }

/-- `m_headers[0..m_headersLength]` -/
def headers (m : Message k) : List Header := m.m_headers.toList.take m.m_headersLength

/-- `p.msg.m_headersLength = 0;` (bench/bench.d:61) -/
def clear (m : Message k) : Message k := { m with m_headersLength := 0, inRange := Nat.zero_le _ }

@[simp] theorem headers_length (m : Message k) : m.headers.length = m.m_headersLength := by
  rw [headers, List.length_take, Vector.length_toList, Nat.min_eq_left m.inRange]

/-- One callback: its answer, and what it leaves behind. A `void` callback answers 0. -/
def receive (m : Message k) : Event Slice → Except Fault (Int × Message k)
  | .onMethod method => .ok (0, m.onMethod method)
  | .onUri uri => .ok (0, m.onUri uri)
  | .onVersion ver => m.onVersion ver
  | .onHeader name value => (m.onHeader name value).map fun m' => (0, m')
  | .onStatus status => .ok (0, m.onStatus status)
  | .onStatusMsg statusMsg => .ok (0, m.onStatusMsg statusMsg)

end Message

/-- `Msg.onVersion` (httparsed.d:643): `minorVer` becomes the answer of `parseHttpVersion`, an error included. -/
def minorVersion (ver : Slice) : Except Fault (Int × Int) := do
  let minorVer ← returned (parseHttpVersion ver)
  .ok (if 0 ≤ minorVer then 0 else minorVer, minorVer)

theorem minorVersion_eq (ver : Slice) :
    minorVersion ver = .ok (if (http1 ver.bytes).isSome = true then 0 else err .invalidVersion,
      (http1 ver.bytes).getD (err .invalidVersion)) := by
  rw [minorVersion, parseHttpVersion_eq]
  show Except.ok _ = _
  cases hv : http1 ver.bytes with
  | none => rfl
  | some v => simp [http1_nonneg hv]

/-- `Msg` of the documentation and the tests (httparsed.d:638). -/
def msgKind : MsgKind where
  slots := 32
  Version := Int
  initial := 0
  onVersion := minorVersion
  accepts := fun ver => (http1 ver).isSome
  stored := fun ver => (http1 ver.bytes).getD (err .invalidVersion)
  onVersion_eq := minorVersion_eq

abbrev Msg := Message msgKind

/-- `Msg` of the benchmark (bench/bench.d:249), which takes any version as it is. -/
def benchKind : MsgKind where
  slots := 10
  Version := Option Slice
  initial := none
  onVersion := fun ver => .ok (0, some ver)
  accepts := fun _ => true
  stored := some
  onVersion_eq := fun _ => rfl

abbrev BenchMsg := Message benchKind

/-! ## What some callbacks leave behind -/

namespace Event

def method? : Event Slice → Option (Option Slice)
  | .onMethod method => some (some method)
  | _ => none

def uri? : Event Slice → Option (Option Slice)
  | .onUri uri => some (some uri)
  | _ => none

def version? (k : MsgKind) : Event Slice → Option k.Version
  | .onVersion ver => some (k.stored ver)
  | _ => none

def header? : Event Slice → Option Header
  | .onHeader name value => some ⟨name, some value⟩
  | _ => none

def status? : Event Slice → Option Int
  | .onStatus status => some status
  | _ => none

def statusMsg? : Event Slice → Option (Option Slice)
  | .onStatusMsg statusMsg => some (some statusMsg)
  | _ => none

/-- A version the object does not accept. -/
def refused (k : MsgKind) : Event Slice → Bool
  | .onVersion ver => !k.accepts ver.bytes
  | _ => false

theorem header?_none {e : Event Slice} (h : e.isHeader = false) : e.header? = none := by
  cases e with
  | onHeader name value => cases h
  | _ => rfl

theorem header?_of_isHeader {e : Event Slice} (h : e.isHeader = true) : ∃ x, e.header? = some x := by
  cases e with
  | onHeader name value => exact ⟨_, rfl⟩
  | _ => cases h

end Event

/-- What the last of the callbacks has told, or else what was there before. -/
def lastTold {α : Type} (f : Event Slice → Option α) (es : List (Event Slice)) (old : α) : α :=
  (es.filterMap f).getLast?.getD old

section

variable {α : Type} (f : Event Slice → Option α)

@[simp] theorem lastTold_nil (old : α) : lastTold f [] old = old := rfl

theorem lastTold_append (a b : List (Event Slice)) (old : α) :
    lastTold f (a ++ b) old = lastTold f b (lastTold f a old) := by
  unfold lastTold
  rw [List.filterMap_append, List.getLast?_append]
  cases (List.filterMap f b).getLast? with
  | none => rfl
  | some x => rfl

/-- Being told the same once more changes nothing. -/
theorem lastTold_again (es : List (Event Slice)) (old : α) :
    lastTold f es (lastTold f es old) = lastTold f es old := by
  unfold lastTold
  cases (List.filterMap f es).getLast? with
  | none => rfl
  | some x => rfl

/-- Callbacks of other kinds tell nothing. -/
theorem lastTold_none {es : List (Event Slice)} (h : ∀ e ∈ es, f e = none) (old : α) : lastTold f es old = old := by
  unfold lastTold
  rw [List.filterMap_eq_nil_iff.2 h]
  rfl

end

namespace Message

variable {k : MsgKind}

/-- `m'` is `m` with the callbacks `es` stored: the slots in use are followed by one for each header, and the
slots behind them are as they were. -/
structure Told (m : Message k) (es : List (Event Slice)) (m' : Message k) : Prop where
  method : m'.method = lastTold Event.method? es m.method
  uri : m'.uri = lastTold Event.uri? es m.uri
  version : m'.version = lastTold (Event.version? k) es m.version
  status : m'.status = lastTold Event.status? es m.status
  statusMsg : m'.statusMsg = lastTold Event.statusMsg? es m.statusMsg
  used : m'.m_headersLength = m.m_headersLength + (es.filterMap Event.header?).length
  slots : m'.m_headers.toList = m.headers ++ es.filterMap Event.header? ++
    m.m_headers.toList.drop (m.m_headersLength + (es.filterMap Event.header?).length)

namespace Told

variable {m m₁ m₂ : Message k} {es es' : List (Event Slice)}

/-- **The headers of the message** are those it had and those it was told of. -/
theorem headers (h : Told m es m₁) : m₁.headers = m.headers ++ es.filterMap Event.header? := by
  rw [Message.headers, h.slots, h.used]
  apply List.take_left'
  rw [List.length_append, headers_length]

theorem nil (m : Message k) : Told m [] m where
  method := rfl
  uri := rfl
  version := rfl
  status := rfl
  statusMsg := rfl
  used := rfl
  slots := by
    rw [List.filterMap_nil, List.append_nil]
    exact (List.take_append_drop ..).symm

theorem trans (h : Told m es m₁) (h' : Told m₁ es' m₂) : Told m (es ++ es') m₂ where
  method := by rw [h'.method, h.method, lastTold_append]
  uri := by rw [h'.uri, h.uri, lastTold_append]
  version := by rw [h'.version, h.version, lastTold_append]
  status := by rw [h'.status, h.status, lastTold_append]
  statusMsg := by rw [h'.statusMsg, h.statusMsg, lastTold_append]
  used := by
    rw [h'.used, h.used, List.filterMap_append, List.length_append]
    omega
  slots := by
    have hused : (m.headers ++ es.filterMap Event.header?).length =
        m.m_headersLength + (es.filterMap Event.header?).length := by
      rw [List.length_append, headers_length]
    rw [h'.slots, h.headers, h.slots, h.used, List.drop_append, hused, List.drop_of_length_le (by rw [hused]; omega),
      List.nil_append, List.drop_drop, List.filterMap_append, List.length_append, List.append_assoc m.headers]
    congr 2
    omega

/-- A message that is told the same once more, without a header in it, stays as it is. -/
theorem again (h : Told m es m₁) (hes : es.filterMap Event.header? = []) : Told m₁ es m₁ where
  method := by rw [h.method, lastTold_again]
  uri := by rw [h.uri, lastTold_again]
  version := by rw [h.version, lastTold_again]
  status := by rw [h.status, lastTold_again]
  statusMsg := by rw [h.statusMsg, lastTold_again]
  used := by
    rw [hes]
    rfl
  slots := by
    rw [hes, List.append_nil]
    exact (List.take_append_drop ..).symm

/-- What a message is told determines it. -/
theorem unique (h : Told m es m₁) (h' : Told m es m₂) : m₁ = m₂ := by
  ext1
  · rw [h.method, h'.method]
  · rw [h.uri, h'.uri]
  · rw [h.version, h'.version]
  · rw [h.status, h'.status]
  · rw [h.statusMsg, h'.statusMsg]
  · rw [← Vector.toList_inj, h.slots, h'.slots]
  · rw [h.used, h'.used]

end Told

/-! ## One callback -/

theorem onHeader_full {m : Message k} (h : ¬ m.m_headersLength < k.slots) (name : Option Slice) (value : Slice) :
    m.onHeader name value = .error .range := dif_neg h

theorem onHeader_told {m : Message k} (h : m.m_headersLength < k.slots) (name : Option Slice) (value : Slice) :
    ∃ m', m.onHeader name value = .ok m' ∧ Told m [.onHeader name value] m' := by
  refine ⟨_, dif_pos h, ?_⟩
  constructor
  · rfl
  · rfl
  · rfl
  · rfl
  · rfl
  · rfl
  · simp only [List.filterMap_cons, Event.header?, List.filterMap_nil, List.length_singleton, Vector.toList_set]
    rw [List.set_eq_take_append_cons_drop, Vector.length_toList, if_pos h, headers, List.append_assoc]
    rfl

/-- The answer of a `Msg` to a callback it does not trap in. -/
def answerTo (k : MsgKind) (e : Event Slice) : Int := if e.refused k = true then err .invalidVersion else 0

theorem onVersion_told (m : Message k) (ver : Slice) :
    ∃ m', m.onVersion ver = .ok (answerTo k (.onVersion ver), m') ∧ Told m [.onVersion ver] m' := by
  refine ⟨{ m with version := k.stored ver }, ?_, { Told.nil m with version := rfl }⟩
  rw [onVersion, k.onVersion_eq]
  show Except.ok (_, _) = Except.ok (_, _)
  rw [answerTo, Event.refused]
  cases k.accepts ver.bytes with
  | false => rfl
  | true => rfl

/-- **One callback**: a header without a free slot is a trap; anything else is stored, and only a version that is
not accepted is refused. -/
theorem receive_told (m : Message k) (e : Event Slice) (h : e.isHeader = true → m.m_headersLength < k.slots) :
    ∃ m', m.receive e = .ok (answerTo k e, m') ∧ Told m [e] m' := by
  cases e with
  | onMethod method => exact ⟨_, rfl, { Told.nil m with method := rfl }⟩
  | onUri uri => exact ⟨_, rfl, { Told.nil m with uri := rfl }⟩
  | onVersion ver => exact onVersion_told m ver
  | onHeader name value =>
    obtain ⟨m', hm', htold⟩ := onHeader_told (h rfl) name value
    refine ⟨m', ?_, htold⟩
    rw [receive, hm']
    rfl
  | onStatus status => exact ⟨_, rfl, { Told.nil m with status := rfl }⟩
  | onStatusMsg statusMsg => exact ⟨_, rfl, { Told.nil m with statusMsg := rfl }⟩

theorem receive_full {m : Message k} {e : Event Slice} (he : e.isHeader = true) (h : ¬ m.m_headersLength < k.slots) :
    m.receive e = .error .range := by
  cases e with
  | onHeader name value =>
    rw [receive, onHeader_full h]
    rfl
  | _ => cases he

/-! ## Some callbacks -/

/-- The headers among some callbacks. -/
def headersOf (es : List (Event Slice)) : List Header := es.filterMap Event.header?

/-- Store one callback after the other. -/
def hear (m : Message k) (es : List (Event Slice)) : Except Fault (Message k) :=
  es.foldlM (fun m e => (m.receive e).map Prod.snd) m

theorem hear_cons (m : Message k) (e : Event Slice) (es : List (Event Slice)) :
    m.hear (e :: es) = (m.receive e).map Prod.snd >>= fun m' => m'.hear es := rfl

/-- **Some callbacks** are all stored if there is a slot for each header; otherwise they end in a trap. -/
theorem hear_told (m : Message k) (es : List (Event Slice)) :
    if m.m_headersLength + (headersOf es).length ≤ k.slots then ∃ m', m.hear es = .ok m' ∧ Told m es m'
    else m.hear es = .error .range := by
  induction es generalizing m with
  | nil =>
    rw [if_pos (show m.m_headersLength + (headersOf []).length ≤ k.slots from m.inRange)]
    exact ⟨m, rfl, Told.nil m⟩
  | cons e es ih =>
    by_cases hfull : e.isHeader = true ∧ ¬ m.m_headersLength < k.slots
    · obtain ⟨x, hx⟩ := Event.header?_of_isHeader hfull.1
      have hlen : ¬ m.m_headersLength + (headersOf (e :: es)).length ≤ k.slots := by
        rw [headersOf, List.filterMap_cons_some hx, List.length_cons]
        omega
      rw [if_neg hlen, hear_cons, receive_full hfull.1 hfull.2]
      rfl
    · obtain ⟨m₁, hm₁, htold⟩ := m.receive_told e fun he => not_not.1 fun h => hfull ⟨he, h⟩
      have hused : m.m_headersLength + (headersOf (e :: es)).length = m₁.m_headersLength + (headersOf es).length := by
        rw [htold.used, headersOf, headersOf, ← List.singleton_append, List.filterMap_append, List.length_append]
        omega
      have hcons : m.hear (e :: es) = m₁.hear es := by
        rw [hear_cons, hm₁]
        rfl
      rw [hused, hcons]
      have hes := ih m₁
      split_ifs at hes ⊢ with hle
      · obtain ⟨m', hm', htold'⟩ := hes
        exact ⟨m', hm', htold.trans htold'⟩
      · exact hes

/-! ## The object as a handler -/

/-- A call of the parser's on a `Msg`. -/
def listen (e : Event Slice) (m : Message k) : Except Fault (Except Int PUnit × Message k) :=
  (m.receive e).map fun x => (if x.1 < 0 then .error x.1 else .ok ⟨⟩, x.2)

/-- `MsgParser!Msg`: behind a trap nothing is executed, which a refusal stands for. -/
def handler (k : MsgKind) : Handler (Except Fault (Message k)) where
  has := fun _ => true
  call := fun e s =>
    match s with
    | .error f => (-1, .error f)
    | .ok m =>
      match m.receive e with
      | .error f => (-1, .error f)
      | .ok (r, m') => (r, .ok m')

theorem consult_handler : consult (handler k) = Veto.guarded (@listen k) (-1) := by
  funext e s
  cases s with
  | error f => rfl
  | ok m =>
    unfold consult Veto.guarded listen
    cases h : m.receive e with
    | error f => simp [handler, h, Except.map]
    | ok x =>
      obtain ⟨r, m'⟩ := x
      by_cases hr : r < 0
      · simp [handler, h, Except.map, hr]
      · simp [handler, h, Except.map, hr]

theorem listen_accepted {e : Event Slice} (h : e.refused k = false) (m : Message k) :
    listen e m = ((m.receive e).map Prod.snd).map fun m' => (.ok ⟨⟩, m') := by
  unfold listen
  by_cases hfull : e.isHeader = true ∧ ¬ m.m_headersLength < k.slots
  · rw [receive_full hfull.1 hfull.2]
    rfl
  · obtain ⟨m', hm', -⟩ := m.receive_told e fun he => not_not.1 fun h => hfull ⟨he, h⟩
    have hanswer : answerTo k e = 0 := if_neg (by rw [h]; exact Bool.false_ne_true)
    rw [hm', hanswer]
    rfl

theorem not_header_of_refused {e : Event Slice} (h : e.refused k = true) : e.isHeader = false := by
  cases e with
  | onVersion ver => rfl
  | _ => cases h

theorem listen_refused {e : Event Slice} (h : e.refused k = true) (m : Message k) :
    ∃ m', listen e m = .ok (.error (err .invalidVersion), m') ∧ Told m [e] m' := by
  obtain ⟨m', hm', htold⟩ := m.receive_told e fun he => by rw [not_header_of_refused h] at he; cases he
  refine ⟨m', ?_, htold⟩
  have hanswer : answerTo k e = err .invalidVersion := if_pos h
  rw [listen, hm', hanswer]
  rfl

end Message

section

variable {k : MsgKind}

/-- `parseRequest` or `parseResponse` of a `MsgParser!Msg`: the code, `lastPos` and the message, or the trap. -/
def Entry.parseMsg (entry : Entry) (simd : Simd) (b : List Byte) (lastPos : Nat) (m : Message k) :
    Except Fault ((Int × Nat) × Message k) :=
  match entry.parse ⟨simd, Ints.d⟩ (Message.handler k) b lastPos (.ok m) with
  | (_, .error f) => .error f
  | (.error f, .ok _) => .error f
  | (.ok r, .ok m') => .ok (r, m')

/-- **The parser on a `Msg`**: the answer to the buffer, its callbacks delivered to the message. -/
theorem Entry.parseMsg_eq (entry : Entry) (simd : Simd) {b : List Byte} (hb : b.length < 2 ^ 31) {lastPos : Nat}
    (hpos : lastPos ≤ b.length) (m : Message k) :
    entry.parseMsg simd b lastPos m =
      (Veto.deliver Message.listen (answer entry.line b lastPos).calls m).map fun x =>
        ((answer entry.line b lastPos).result x.1, x.2) := by
  have hparse := entry.parse_exact ⟨simd, Ints.d⟩ (Message.handler k) Ints.d_small (Ints.d_faithful hb) hpos (.ok m)
  have hoffer := Veto.settle_offer (g := Message.listen) (-1) (answer entry.line b lastPos).calls m
  rw [← hoffer, ← Message.consult_handler, parseMsg, hparse]
  rcases Veto.offer (consult (Message.handler k)) (answer entry.line b lastPos).calls (.ok m) with ⟨res, f | m'⟩
  · rfl
  · rfl

end

end Httparsed

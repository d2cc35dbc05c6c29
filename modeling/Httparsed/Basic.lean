import Mathlib.Data.List.Basic
import Mathlib.Logic.Function.Basic

/-!
# The values the parser works on (source/httparsed.d)

| here | there |
| --- | --- |
| `ParserError`, `err`   | `enum ParserError` (httparsed.d:9), `err` (:589) |
| `Slice`                | `const(ubyte)[]`: where it starts in the buffer of the call, and its bytes |
| `Ints`                 | the `int` / `uint` conversions of `parse` and of the value trimming |
| `Event`, `Handler`     | the callbacks of `MSG` and which of them it has (`__traits(hasMember, m_msg, …)`) |
| `Parser`, `Stop`       | a function body that may `return` early; `m_msg` is its state |

What the D runtime traps on is an outcome of its own (`Fault`), so that "never out of range" is a
statement about the model. Two things it does not trap on are faults here as well: a `size_t`
subtraction that would wrap, and a loop that does not end.
-/

namespace Httparsed

/-! ## Error codes -/

/-- `ParserError` (httparsed.d:9); `partialData` is `partial`. -/
inductive ParserError where
  | partialData
  | newLine
  | headerName
  | headerValue
  | status
  | token
  | noHeaderName
  | noMethod
  | noVersion
  | noUri
  | noStatus
  | invalidMethod
  | invalidVersion
  deriving DecidableEq, Repr

def ParserError.toInt : ParserError → Int
  | .partialData => 1
  | .newLine => 2
  | .headerName => 3
  | .headerValue => 4
  | .status => 5
  | .token => 6
  | .noHeaderName => 7
  | .noMethod => 8
  | .noVersion => 9
  | .noUri => 10
  | .noStatus => 11
  | .invalidMethod => 12
  | .invalidVersion => 13

/-- httparsed.d:589 -/
def err (e : ParserError) : Int := -e.toInt

theorem err_neg (e : ParserError) : err e < 0 := by cases e <;> decide

theorem err_inj {e e' : ParserError} : err e = err e' ↔ e = e' :=
  ⟨fun h => by cases e <;> cases e' <;> first | rfl | exact absurd h (by decide), fun h => h ▸ rfl⟩

/-! ## Bytes -/

abbrev Byte := UInt8

abbrev SP : Byte := 32
abbrev HT : Byte := 9
abbrev CR : Byte := 13
abbrev LF : Byte := 10
abbrev COLON : Byte := 58

/-- A property of all 256 bytes can be checked byte by byte. -/
theorem forall_byte {P : Byte → Prop} (h : ∀ i : Fin 256, P (UInt8.ofFin i)) (c : Byte) : P c := by
  simpa using h c.toFin

/-! ## Control: early returns and faults -/

inductive Fault where
  /-- index or slice out of range (`RangeError`) -/
  | range
  /-- a failed `assert` -/
  | assertion
  /-- a `size_t` subtraction below zero -/
  | wrap
  /-- a loop that has not ended within its bound -/
  | fuel
  deriving DecidableEq, Repr

/-- Why the rest of a function body is not executed. -/
inductive Stop where
  /-- `return code;` -/
  | ret (code : Int)
  | fault (f : Fault)
  deriving DecidableEq, Repr

/-- A function body with the application's message object (`m_msg : σ`) as its state. -/
abbrev Parser (σ : Type) := ExceptT Stop (StateM σ)

/-- A computation that does not touch the message object. -/
def lift {σ α : Type} (x : Except Stop α) : Parser σ α := fun s => (x, s)

section Control

variable {σ α β : Type}

@[simp] theorem ok_bind (a : α) (f : α → Except Stop β) : (Except.ok a >>= f) = f a := rfl

@[simp] theorem error_bind (e : Stop) (f : α → Except Stop β) : (Except.error e >>= f) = .error e := rfl

@[simp] theorem lift_ok_bind (a : α) (f : α → Parser σ β) : (lift (.ok a) >>= f) = f a := rfl

@[simp] theorem lift_error_bind (e : Stop) (f : α → Parser σ β) :
    (lift (.error e : Except Stop α) >>= f) = lift (.error e) := rfl

theorem lift_bind (x : Except Stop α) (f : α → Except Stop β) :
    (lift (x >>= f) : Parser σ β) = lift x >>= fun a => lift (f a) := by
  cases x <;> rfl

theorem pure_apply (a : α) (s : σ) : (pure a : Parser σ α) s = (.ok a, s) := rfl

theorem bind_apply (x : Parser σ α) (f : α → Parser σ β) (s : σ) :
    (x >>= f) s = match x s with
      | (.ok a, s') => f a s'
      | (.error e, s') => (.error e, s') := by
  show (match x s with | (a, s') => ExceptT.bindCont f a s') = _
  rcases x s with ⟨e | a, s'⟩ <;> rfl

end Control

/-! ## Slices -/

structure Slice where
  /-- offset of the first byte in the buffer of the call -/
  ptr : Nat
  bytes : List Byte
  deriving DecidableEq, Repr

namespace Slice

def length (s : Slice) : Nat := s.bytes.length

/-- `s[i]` -/
def get (s : Slice) (i : Nat) : Except Stop Byte :=
  match s.bytes[i]? with
  | some c => .ok c
  | none => .error (.fault .range)

/-- The bytes from `a` up to `b`, without the bounds check. -/
def sub (s : Slice) (a b : Nat) : Slice := ⟨s.ptr + a, (s.bytes.drop a).take (b - a)⟩

/-- `s[a..b]` -/
def slice (s : Slice) (a b : Nat) : Except Stop Slice :=
  if a ≤ b ∧ b ≤ s.length then .ok (s.sub a b) else .error (.fault .range)

/-- `s[a..$]` -/
def sliceFrom (s : Slice) (a : Nat) : Except Stop Slice := s.slice a s.length

/-- `s ~ c`, for a slice that grows along its buffer. -/
def push (s : Slice) (c : Byte) : Slice := ⟨s.ptr, s.bytes ++ [c]⟩

@[simp] theorem push_ptr (s : Slice) (c : Byte) : (s.push c).ptr = s.ptr := rfl

@[simp] theorem push_bytes (s : Slice) (c : Byte) : (s.push c).bytes = s.bytes ++ [c] := rfl

theorem get_ok {s : Slice} {i : Nat} {c : Byte} {cs : List Byte} (h : s.bytes.drop i = c :: cs) :
    s.get i = .ok c := by
  have : s.bytes[i]? = some c := by rw [← List.head?_drop, h]; rfl
  simp [get, this]

theorem drop_succ {s : Slice} {i : Nat} {c : Byte} {cs : List Byte} (h : s.bytes.drop i = c :: cs) :
    s.bytes.drop (i + 1) = cs := by
  rw [← List.drop_drop, h]; rfl

theorem length_of_drop {s : Slice} {i : Nat} {r : List Byte} (hi : i ≤ s.length) (h : s.bytes.drop i = r) :
    s.length = i + r.length := by
  have := congrArg List.length h
  simp only [List.length_drop, length] at this hi ⊢
  omega

theorem lt_of_drop {s : Slice} {i : Nat} {c : Byte} {cs : List Byte} (h : s.bytes.drop i = c :: cs) :
    i < s.length := by
  have := congrArg List.length h
  simp only [List.length_drop, List.length_cons, length] at this ⊢
  omega

@[simp] theorem sub_self (s : Slice) (a : Nat) : s.sub a a = ⟨s.ptr + a, []⟩ := by simp [sub]

theorem sub_push {s : Slice} {a i : Nat} {c : Byte} {cs : List Byte} (ha : a ≤ i) (h : s.bytes.drop i = c :: cs) :
    (s.sub a i).push c = s.sub a (i + 1) := by
  have hd : (s.bytes.drop a).drop (i - a) = c :: cs := by
    rw [List.drop_drop, show a + (i - a) = i by omega, h]
  have hg : (s.bytes.drop a)[i - a]? = some c := by rw [← List.head?_drop, hd]; rfl
  simp only [sub, push, Slice.mk.injEq, true_and]
  rw [show i + 1 - a = (i - a) + 1 by omega, List.take_add_one, hg]
  rfl

theorem slice_ok {s : Slice} {a b : Nat} (hab : a ≤ b) (hb : b ≤ s.length) : s.slice a b = .ok (s.sub a b) := by
  simp [slice, hab, hb]

theorem sliceFrom_ok {s : Slice} {a : Nat} (ha : a ≤ s.length) :
    s.sliceFrom a = .ok ⟨s.ptr + a, s.bytes.drop a⟩ := by
  rw [sliceFrom, slice_ok ha (Nat.le_refl _), sub, List.take_of_length_le (by simp [length])]

end Slice

/-! ## Integer conversions -/

/-- How sizes become `int` and `uint`: `wrap` brings a mathematical value into `int`, `uint` into `uint`. -/
structure Ints where
  wrap : Int → Int
  uint : Int → Nat

/-- D's 32-bit `int` and `uint`. -/
def Ints.d : Ints := ⟨fun x => (x + 2147483648) % 4294967296 - 2147483648, fun x => (x % 4294967296).toNat⟩

/-- The same code with unbounded integers. -/
def Ints.exact : Ints := ⟨id, Int.toNat⟩

/-- `a - b` on `size_t`. -/
def sizeSub (a b : Nat) : Except Stop Nat := if b ≤ a then .ok (a - b) else .error (.fault .wrap)

theorem sizeSub_ok {a b : Nat} (h : b ≤ a) : sizeSub a b = .ok (a - b) := by simp [sizeSub, h]

/-- An `int` used as a `size_t` is sign-extended to 64 bits. -/
def sizeOfInt (x : Int) : Nat := (x % 18446744073709551616).toNat

/-! ## Callbacks -/

/-- The members of `MSG` the parser looks for. -/
inductive Member where
  | onMethod
  | onUri
  | onVersion
  | onHeader
  | onStatus
  | onStatusMsg
  deriving DecidableEq, Repr

/-- A call of one of them; a continuation line has the name `null`. -/
inductive Event (α : Type) where
  | onMethod (method : α)
  | onUri (uri : α)
  | onVersion (ver : α)
  | onHeader (name : Option α) (value : α)
  | onStatus (status : Int)
  | onStatusMsg (statusMsg : α)
  deriving DecidableEq, Repr

namespace Event

variable {α β : Type}

def member : Event α → Member
  | .onMethod _ => .onMethod
  | .onUri _ => .onUri
  | .onVersion _ => .onVersion
  | .onHeader _ _ => .onHeader
  | .onStatus _ => .onStatus
  | .onStatusMsg _ => .onStatusMsg

def map (f : α → β) : Event α → Event β
  | .onMethod m => .onMethod (f m)
  | .onUri u => .onUri (f u)
  | .onVersion v => .onVersion (f v)
  | .onHeader n v => .onHeader (n.map f) (f v)
  | .onStatus c => .onStatus c
  | .onStatusMsg m => .onStatusMsg (f m)

@[simp] theorem map_member (f : α → β) (e : Event α) : (e.map f).member = e.member := by cases e <;> rfl

/-- What the application can read off a call: the bytes of its slices. -/
def text (e : Event Slice) : Event (List Byte) := e.map Slice.bytes

def isHeader (e : Event α) : Bool := e.member == .onHeader

end Event

/-- A message handler over its state `σ`. A `void` callback is one that answers 0. -/
structure Handler (σ : Type) where
  has : Member → Bool
  call : Event Slice → σ → Int × σ

namespace Handler

variable {σ : Type}

/-- `auto r = m_msg.onX(…); if (r < 0) return r;`, compiled in only where `MSG` has the member. -/
def notify (h : Handler σ) (e : Event Slice) : Parser σ PUnit := fun s =>
  if h.has e.member then
    let (r, s') := h.call e s
    if r < 0 then (.error (.ret r), s') else (.ok ⟨⟩, s')
  else (.ok ⟨⟩, s)

theorem notify_apply (h : Handler σ) (e : Event Slice) (s : σ) :
    h.notify e s =
      ((if h.has e.member = true ∧ (h.call e s).1 < 0 then .error (.ret (h.call e s).1) else .ok ⟨⟩,
        if h.has e.member = true then (h.call e s).2 else s) : Except Stop PUnit × σ) := by
  unfold notify
  by_cases hm : h.has e.member = true
  · by_cases hr : (h.call e s).1 < 0
    · simp only [hm, hr, ↓reduceIte, and_self]
    · simp only [hm, hr, ↓reduceIte, and_false]
  · simp only [hm, Bool.false_eq_true, ↓reduceIte, false_and]

/-- No callback that is there ever answers a negative value. -/
def NeverRejects (h : Handler σ) : Prop := ∀ e s, h.has e.member = true → 0 ≤ (h.call e s).1

/-- The same handler with a log of the calls it receives and of its answers. -/
def logged (h : Handler σ) : Handler (σ × List (Event Slice × Int)) where
  has := h.has
  call := fun e (s, log) => ((h.call e s).1, (h.call e s).2, log ++ [(e, (h.call e s).1)])

/-- The handler that has every member and accepts everything. -/
def recorder : Handler PUnit := ⟨fun _ => true, fun _ s => (0, s)⟩

theorem recorder_neverRejects : recorder.NeverRejects := fun _ _ _ => Int.le_refl 0

end Handler

end Httparsed
